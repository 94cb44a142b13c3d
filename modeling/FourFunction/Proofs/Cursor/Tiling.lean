import FourFunction.Proofs.Cursor.Reads
import FourFunction.Proofs.Lexeme.Pattern
import FourFunction.Scanner.Bookmark

/-! All lexemes of a source, unmatched characters included, and the bytes that they cover. Each is
what the patterns find where it stands, no two overlap, and exactly the blanks are left out. -/

namespace FourFunction

open Text

/-! ## Lexemes found by the patterns -/

/-- What is found at the start of a text: the longest text that a pattern of numerals matches, a
symbol, or one character that is no blank and starts neither. -/
def Lexeme.Heads (cs : List Char) : Lexeme → Prop
  | numeral n => n.text <+: cs ∧ n.text ∈ Pattern.numeral.matches' ∧
      ∀ m, m <+: cs → m ∈ Pattern.numeral.matches' → m.length ≤ n.text.length
  | symbol s => [s.toChar] <+: cs
  | unmatched c => [c] <+: cs ∧ c ∉ blanks ∧ (∀ s : Symbol, s.toChar ≠ c) ∧
      ∀ m, m <+: cs → m ∉ Pattern.numeral.matches'

namespace Lexeme

theorem read?_heads {cs rest : List Char} {l : Lexeme} (h : read? cs = some (l, rest))
    (hblank : ∀ c ∈ cs.head?, isBlank c = false) : l.Heads cs := by
  have happend := read?_append h
  rcases read?_eq_some h with ⟨c, s, -, -, rfl⟩ | ⟨n, hn, rfl⟩ | ⟨c, rfl, hs, hn, rfl⟩
  · exact ⟨rest, happend⟩
  · exact ⟨⟨rest, happend⟩, Numeral.mem_pattern_of_read? hn,
      fun m hstarts hm => Numeral.length_le_of_read? hn hstarts hm⟩
  · refine ⟨⟨rest, rfl⟩, isBlank_eq_false_iff.mp (hblank c rfl), ?_,
      fun m => Numeral.not_mem_pattern_of_read?_eq_none hn⟩
    rintro s rfl
    simp at hs

theorem Heads.text_ne_nil {cs : List Char} {l : Lexeme} (h : l.Heads cs) : l.text ≠ [] := by
  cases l with
  | numeral n =>
      obtain ⟨m, hm, htext⟩ := Pattern.mem_numeral.mp h.2.1
      obtain ⟨c, cs, hcons, -⟩ := hm.exists_text_eq_cons
      simp [text, ← htext, hcons]
  | symbol s => simp [text]
  | unmatched c => simp [text]

theorem Heads.isBlank_eq_false {cs : List Char} {l : Lexeme} (h : l.Heads cs) :
    ∀ c ∈ l.text, isBlank c = false := by
  intro c hc
  cases l with
  | numeral n =>
      obtain ⟨m, hm, htext⟩ := Pattern.mem_numeral.mp h.2.1
      rw [text, ← htext] at hc
      exact isBlank_of_isDigit_or_point (hm.isDigit_or_point c hc)
  | symbol s =>
      rw [List.mem_singleton.mp hc]
      exact s.isBlank_toChar
  | unmatched u =>
      rw [List.mem_singleton.mp hc]
      exact isBlank_eq_false_iff.mpr h.2.1

/-- Where a pattern matches, a numeral is found. -/
theorem Heads.exists_numeral {cs m : List Char} {l : Lexeme} (h : l.Heads cs) (hstarts : m <+: cs)
    (hm : m ∈ Pattern.numeral.matches') : ∃ n, l = numeral n := by
  cases l with
  | numeral n => exact ⟨n, rfl⟩
  | symbol s =>
      obtain ⟨n, hn, rfl⟩ := Pattern.mem_numeral.mp hm
      obtain ⟨c, ds, htext, hc⟩ := hn.exists_text_eq_cons
      obtain ⟨rest, rfl⟩ := hstarts
      obtain ⟨more, hmore⟩ := h
      obtain rfl : s.toChar = c := by simpa [htext] using congrArg List.head? hmore
      simpa using Symbol.ofChar?_of_isDigit_or_point hc
  | unmatched c => exact absurd hm (h.2.2.2 m hstarts)

/-- Where the character of a symbol stands, the symbol is found. -/
theorem Heads.eq_symbol {cs : List Char} {l : Lexeme} {s : Symbol} (h : l.Heads (s.toChar :: cs)) :
    l = symbol s := by
  cases l with
  | numeral n =>
      obtain ⟨m, hm, htext⟩ := Pattern.mem_numeral.mp h.2.1
      obtain ⟨c, ds, hcons, hc⟩ := hm.exists_text_eq_cons
      obtain ⟨more, hmore⟩ := h.1
      obtain rfl : c = s.toChar := by simpa [← htext, hcons] using congrArg List.head? hmore
      simpa using Symbol.ofChar?_of_isDigit_or_point hc
  | symbol s' =>
      obtain ⟨more, hmore⟩ := h
      have hchar : s'.toChar = s.toChar := by simpa using congrArg List.head? hmore
      rw [Symbol.toChar_injective hchar]
  | unmatched c =>
      obtain ⟨more, hmore⟩ := h.1
      have hchar : s.toChar = c := by simpa using (congrArg List.head? hmore).symm
      exact absurd hchar (h.2.2.1 s)

end Lexeme

/-! ## Tilings -/

/-- From byte `start` of a source on its text consists of blanks and of these lexemes, each of which
is found where it stands. -/
inductive Tiles : Nat → List Char → List Placed → Prop where
  | blanks {start : Nat} {gap : List Char} : (∀ b ∈ gap, isBlank b) → Tiles start gap []
  | lexeme {start : Nat} {gap cs : List Char} {l : Lexeme} {ps : List Placed} :
      (∀ b ∈ gap, isBlank b) → l.Heads (l.text ++ cs) →
      Tiles (start + byteLength gap + byteLength l.text) cs ps →
      Tiles start (gap ++ (l.text ++ cs)) (⟨l, start + byteLength gap⟩ :: ps)

theorem Cursor.tiles_lexemes (c : Cursor) : Tiles c.offset c.rest c.lexemes := by
  fun_induction lexemes c with
  | case1 c hr =>
      rw [read?_eq_none_iff] at hr
      exact .blanks (List.dropWhile_eq_nil_iff.mp hr)
  | case2 c p after hr ih =>
      obtain ⟨l, start⟩ := p
      obtain ⟨hstart, hstop, hread⟩ := read?_eq_some hr
      have htext : c.rest = c.rest.takeWhile isBlank ++ (l.text ++ after.rest) := by
        rw [Lexeme.read?_append hread]
        exact List.takeWhile_append_dropWhile.symm
      have hheads : l.Heads (l.text ++ after.rest) := by
        rw [Lexeme.read?_append hread]
        exact Lexeme.read?_heads hread fun b hb => eq_false_of_mem_head?_dropWhile hb
      obtain rfl : start = c.offset + byteLength (c.rest.takeWhile isBlank) := hstart
      rw [hstop, Placed.stop] at ih
      have htiles := Tiles.lexeme (fun b hb => List.mem_takeWhile_imp hb) hheads ih
      rwa [← htext] at htiles

namespace Tiles

variable {start : Nat} {cs : List Char} {ps : List Placed}

theorem exists_heads (h : Tiles start cs ps) : ∀ p ∈ ps, ∃ before after,
    before ++ (p.lexeme.text ++ after) = cs ∧ start + byteLength before = p.start ∧
      p.lexeme.Heads (p.lexeme.text ++ after) := by
  induction h with
  | blanks _ => simp
  | @lexeme start gap cs l ps _ hl _ ih =>
      intro p hp
      rcases List.mem_cons.mp hp with rfl | hp
      · exact ⟨gap, cs, rfl, rfl, hl⟩
      · obtain ⟨before, after, rfl, hstart, hheads⟩ := ih p hp
        refine ⟨gap ++ (l.text ++ before), after, by simp, ?_, hheads⟩
        rw [← hstart, byteLength_append, byteLength_append]
        omega

theorem start_le (h : Tiles start cs ps) : ∀ p ∈ ps, start ≤ p.start := by
  intro p hp
  obtain ⟨before, after, -, hstart, -⟩ := h.exists_heads p hp
  omega

theorem pairwise (h : Tiles start cs ps) : ps.Pairwise fun p q => p.stop ≤ q.start := by
  induction h with
  | blanks _ => exact .nil
  | lexeme _ _ hrest ih => exact .cons (fun q hq => hrest.start_le q hq) ih

/-- A byte is covered if the character that it belongs to is no blank. -/
theorem covered_iff (h : Tiles start cs ps) : ∀ {before after : List Char} {c : Char},
    before ++ c :: after = cs → ∀ byte, start + byteLength before ≤ byte →
      byte < start + byteLength before + c.utf8Size →
      ((∃ p ∈ ps, p.start ≤ byte ∧ byte < p.stop) ↔ isBlank c = false) := by
  induction h with
  | @blanks start gap hgap =>
      intro before after c hc byte _ _
      have hblank : isBlank c := hgap c (by simp [← hc])
      simp [hblank]
  | @lexeme start gap cs l ps hgap hl hrest ih =>
      intro before after c hc byte hlow hhigh
      have hlater : ∀ p ∈ ps, start + byteLength gap + byteLength l.text ≤ p.start := hrest.start_le
      -- The character is a blank of the gap, or one of the lexeme, or it comes later.
      rcases append_eq_append_cons hc.symm with ⟨rest, rfl, -⟩ | ⟨before, rfl, htail⟩
      · have hblank : isBlank c := hgap c (by simp)
        simp only [hblank, Bool.true_eq_false, iff_false]
        rintro ⟨p, hp, hstart, -⟩
        simp only [byteLength_append, byteLength_cons] at hlater hp
        rcases List.mem_cons.mp hp with rfl | hp
        · simp only at hstart
          omega
        · have := hlater p hp
          omega
      · rw [byteLength_append] at hlow hhigh
        rcases append_eq_append_cons htail with ⟨rest, htext, -⟩ | ⟨before, rfl, hlast⟩
        · have hblank : isBlank c = false := hl.isBlank_eq_false c (by simp [htext])
          simp only [hblank, iff_true]
          refine ⟨_, List.mem_cons_self, ?_, ?_⟩
          · simp only
            omega
          · simp only [Placed.stop, htext, byteLength_append, byteLength_cons]
            omega
        · rw [byteLength_append] at hlow hhigh
          rw [← ih hlast.symm byte (by omega) (by omega), List.exists_mem_cons_iff, or_iff_right]
          simp only [Placed.stop]
          omega

/-- The lexemes after the first `i` are found in the text after the end of those. -/
theorem drop (h : Tiles start cs ps) : ∀ i ≤ ps.length, ∃ before after, before ++ after = cs ∧
    start + byteLength before = ((ps.take i).getLast?.map Placed.stop).getD start ∧
    Tiles (start + byteLength before) after (ps.drop i) := by
  induction h with
  | @blanks start gap hgap =>
      intro i _
      exact ⟨[], gap, rfl, by simp, by simpa using .blanks hgap⟩
  | @lexeme start gap cs l ps hgap hl hrest ih =>
      intro i hi
      cases i with
      | zero => exact ⟨[], _, rfl, rfl, .lexeme hgap hl hrest⟩
      | succ i =>
          obtain ⟨before, after, rfl, hstop, htiles⟩ := ih i (Nat.le_of_succ_le_succ hi)
          have hlength : start + byteLength (gap ++ (l.text ++ before)) =
              start + byteLength gap + byteLength l.text + byteLength before := by
            simp only [byteLength_append]
            omega
          refine ⟨gap ++ (l.text ++ before), after, by simp, ?_, ?_⟩
          · rw [hlength, hstop, List.take_succ_cons, List.getLast?_cons]
            cases (ps.take i).getLast? <;> rfl
          · rw [hlength]
            exact htiles

/-- The first lexeme is found at the first character that is no blank. -/
theorem exists_of_not_blank {gap : List Char} {c : Char} (h : Tiles start (gap ++ c :: cs) ps)
    (hgap : ∀ b ∈ gap, isBlank b) (hc : isBlank c = false) :
    ∃ l qs, ps = ⟨l, start + byteLength gap⟩ :: qs ∧ l.Heads (c :: cs) := by
  generalize htext : gap ++ c :: cs = text at h
  cases h with
  | blanks hblank =>
      have := hblank c (by simp [← htext])
      simp [hc] at this
  | @lexeme _ gap' ds l ps hgap' hl hrest =>
      obtain ⟨d, ds', hd⟩ := List.exists_cons_of_ne_nil hl.text_ne_nil
      have hd' : isBlank d = false := hl.isBlank_eq_false d (by simp [hd])
      have hdrop := congrArg (List.dropWhile isBlank) htext
      have htake := congrArg (List.takeWhile isBlank) htext
      rw [hd, List.cons_append, dropWhile_append_cons hgap hc, dropWhile_append_cons hgap' hd']
        at hdrop
      rw [hd, List.cons_append, takeWhile_append_cons hgap hc, takeWhile_append_cons hgap' hd']
        at htake
      refine ⟨l, ps, by rw [htake], ?_⟩
      rw [hdrop, ← List.cons_append, ← hd]
      exact hl

/-- Wherever the reading comes to after `i` lexemes and the blanks behind them, the next lexeme is
found. -/
theorem exists_getElem? (h : Tiles 0 cs ps) {i : Nat} (hi : i ≤ ps.length)
    {before gap after : List Char} {c : Char} (hcs : before ++ (gap ++ c :: after) = cs)
    (hstop : byteLength before = Bookmark.offset ps i) (hgap : ∀ b ∈ gap, isBlank b)
    (hc : isBlank c = false) :
    ∃ l, ps[i]? = some ⟨l, byteLength (before ++ gap)⟩ ∧ l.Heads (c :: after) := by
  obtain ⟨front, rest, hfront, hlength, htiles⟩ := h.drop i hi
  rw [Nat.zero_add] at hlength htiles
  -- A source has one rest after a number of bytes.
  have hsame : byteLength front = byteLength before := hlength.trans hstop.symm
  obtain rfl : rest = gap ++ c :: after := by
    have hdrop := congrArg (dropBytes (byteLength before)) (hfront.trans hcs.symm)
    rwa [← hsame, dropBytes_byteLength_append, hsame, dropBytes_byteLength_append] at hdrop
  obtain ⟨l, qs, hqs, hl⟩ := htiles.exists_of_not_blank hgap hc
  refine ⟨l, ?_, hl⟩
  rw [← List.head?_drop, hqs, hsame, byteLength_append]
  rfl

end Tiles

/-- The lexemes of a source as spans of bytes. They lie one after the other and cover what is not
blank. Each is the longest that the patterns allow, and none is missed where one can start. -/
structure Partition (source : List Char) (ps : List Placed) : Prop where
  exists_heads : ∀ p ∈ ps, ∃ before after, before ++ (p.lexeme.text ++ after) = source ∧
    byteLength before = p.start ∧ byteLength (before ++ p.lexeme.text) = p.stop ∧
    p.start < p.stop ∧ p.lexeme.Heads (p.lexeme.text ++ after)
  pairwise : ps.Pairwise fun p q => p.stop ≤ q.start
  covered_iff : ∀ before c after, before ++ c :: after = source →
    ∀ byte, byteLength before ≤ byte → byte < byteLength before + c.utf8Size →
      ((∃ p ∈ ps, p.start ≤ byte ∧ byte < p.stop) ↔ c ∉ blanks)
  getElem?_eq : ∀ i ≤ ps.length, ∀ before gap after, before ++ (gap ++ after) = source →
    byteLength before = Bookmark.offset ps i → gap ⊆ blanks →
      (∀ m, m <+: after → m ∈ Pattern.numeral.matches' →
        ∃ n, ps[i]? = some ⟨.numeral n, byteLength (before ++ gap)⟩) ∧
      ∀ (s : Symbol) cs, after = s.toChar :: cs →
        ps[i]? = some ⟨.symbol s, byteLength (before ++ gap)⟩
  converts : ∀ p ∈ ps, ∀ n, p.lexeme = .numeral n → n.text ∈ Pattern.double.matches'

/-- One pass over a source finds a partition of it. -/
theorem partition_lexemes (source : String) : Partition source.toList (lexemes source) := by
  have htiles : Tiles 0 source.toList (lexemes source) :=
    (Cursor.first source.toList).tiles_lexemes
  refine ⟨?_, htiles.pairwise, ?_, ?_, ?_⟩
  · intro p hp
    obtain ⟨before, after, hsource, hstart, hl⟩ := htiles.exists_heads p hp
    rw [Nat.zero_add] at hstart
    refine ⟨before, after, hsource, hstart, ?_, ?_, hl⟩
    · rw [byteLength_append, hstart, Placed.stop]
    · exact Nat.lt_add_of_pos_right (byteLength_pos hl.text_ne_nil)
  · intro before c after hsource byte hlow hhigh
    rw [← isBlank_eq_false_iff]
    exact htiles.covered_iff hsource byte (by omega) (by omega)
  · intro i hi before gap after hsource hstop hgap
    rw [subset_blanks_iff] at hgap
    constructor
    · intro m hstarts hm
      obtain ⟨n, hn, rfl⟩ := Pattern.mem_numeral.mp hm
      obtain ⟨c, cs, htext, hc⟩ := hn.exists_text_eq_cons
      obtain ⟨more, rfl⟩ := hstarts
      rw [htext, List.cons_append] at hsource
      obtain ⟨l, hl, hheads⟩ := htiles.exists_getElem? hi hsource hstop hgap
        (isBlank_of_isDigit_or_point hc)
      obtain ⟨k, rfl⟩ := hheads.exists_numeral ⟨more, by rw [htext, List.cons_append]⟩ hm
      exact ⟨k, hl⟩
    · rintro s cs rfl
      obtain ⟨l, hl, hheads⟩ := htiles.exists_getElem? hi hsource hstop hgap s.isBlank_toChar
      rw [hl, hheads.eq_symbol]
  · intro p hp n hn
    obtain ⟨before, after, -, -, hl⟩ := htiles.exists_heads p hp
    rw [hn] at hl
    exact Pattern.mem_double_of_mem_numeral hl.2.1

end FourFunction
