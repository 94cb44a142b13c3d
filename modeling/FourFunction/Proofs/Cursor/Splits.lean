import FourFunction.Proofs.Cursor.Reads
import FourFunction.Proofs.Lexeme.Proper
import Mathlib.Data.List.Chain

/-! Splitting a text into lexemes with blanks around them. The relation does not say how the
lexemes are found. If no two numerals stand side by side there is one way only to split a text, and
it is the one that reading finds. -/

namespace FourFunction

open Text

/-- The text consists of the texts of proper lexemes with nothing but blanks between, before and
after them. -/
inductive Splits : List Lexeme → List Char → Prop where
  | blank {gap : List Char} : gap ⊆ blanks → Splits [] gap
  | lexeme {gap cs : List Char} {l : Lexeme} {ls : List Lexeme} :
      gap ⊆ blanks → l.Proper → Splits ls cs → Splits (l :: ls) (gap ++ l.text ++ cs)

/-- A numeral is not followed by what could continue it, unless a numeral comes next. -/
theorem Splits.endsBefore {ls : List Lexeme} {cs : List Char} (h : Splits ls cs)
    (hl : ∀ l ∈ ls.head?, ∀ n, l ≠ .numeral n) : Numeral.EndsBefore cs := by
  intro c hc
  cases h with
  | blank hgap => exact isDigit_or_point_of_mem_blanks (hgap (List.mem_of_mem_head? hc))
  | @lexeme gap cs l ls hgap hproper hrest =>
      cases gap with
      | cons b gap =>
          obtain rfl : b = c := by simpa using hc
          exact isDigit_or_point_of_mem_blanks (hgap (by simp))
      | nil =>
          cases l with
          | numeral n => exact absurd rfl (hl _ rfl n)
          | symbol s =>
              obtain rfl : s.toChar = c := by simpa [Lexeme.text] using hc
              exact s.toChar_isDigit_or_point
          | unmatched u => exact hproper.elim

theorem Splits.append_blanks {gap cs : List Char} {ls : List Lexeme}
    (hgap : gap ⊆ blanks) (h : Splits ls cs) : Splits ls (gap ++ cs) := by
  cases h with
  | @blank gap' hgap' => exact .blank (List.append_subset.mpr ⟨hgap, hgap'⟩)
  | @lexeme gap' cs l ls hgap' hl hrest =>
      rw [List.append_assoc gap', ← List.append_assoc gap, ← List.append_assoc (gap ++ gap')]
      exact .lexeme (List.append_subset.mpr ⟨hgap, hgap'⟩) hl hrest

theorem Splits.append {ls ms : List Lexeme} {cs ds : List Char} (h : Splits ls cs)
    (h' : Splits ms ds) : Splits (ls ++ ms) (cs ++ ds) := by
  induction h with
  | blank hgap => exact h'.append_blanks hgap
  | lexeme hgap hl _ ih =>
      rw [List.append_assoc, List.cons_append]
      exact .lexeme hgap hl ih

theorem Lexeme.Proper.splits {l : Lexeme} (h : l.Proper) : Splits [l] l.text := by
  have hsplits := Splits.lexeme (List.nil_subset _) h (.blank (List.nil_subset _))
  rwa [List.nil_append, List.append_nil] at hsplits

/-- Lexemes may follow one another without blanks. -/
theorem splits_flatMap_text {ls : List Lexeme} (h : ∀ l ∈ ls, l.Proper) :
    Splits ls (ls.flatMap Lexeme.text) := by
  induction ls with
  | nil => exact .blank (List.nil_subset _)
  | cons l ls ih =>
      rw [List.forall_mem_cons] at h
      exact h.1.splits.append (ih h.2)

theorem splits_symbol (s : Symbol) : Splits [.symbol s] [s.toChar] :=
  Lexeme.Proper.splits (l := .symbol s) trivial

/-- A symbol among lexemes stands in the text between those before and those after it. -/
theorem Splits.exists_text {ls ms : List Lexeme} {s : Symbol} {cs : List Char}
    (h : Splits (ls ++ .symbol s :: ms) cs) :
    ∃ before after, before ++ s.toChar :: after = cs ∧ Splits ls before ∧ Splits ms after := by
  induction ls generalizing cs with
  | nil =>
      cases h with
      | @lexeme gap cs _ _ hgap _ hrest =>
          exact ⟨gap, cs, by simp [Lexeme.text], .blank hgap, hrest⟩
  | cons l ls ih =>
      cases h with
      | @lexeme gap cs _ _ hgap hl hrest =>
          obtain ⟨before, after, rfl, hbefore, hafter⟩ := ih hrest
          exact ⟨gap ++ l.text ++ before, after, by simp, .lexeme hgap hl hbefore, hafter⟩

/-- The character of a symbol is a lexeme wherever it stands in a text. -/
theorem Splits.exists_symbol {ls : List Lexeme} {before after : List Char} {s : Symbol}
    (h : Splits ls (before ++ s.toChar :: after)) :
    ∃ ms ns, ms ++ .symbol s :: ns = ls ∧ Splits ms before ∧ Splits ns after := by
  generalize hcs : before ++ s.toChar :: after = cs at h
  induction h generalizing before with
  | blank hgap =>
      exact absurd (hgap (by simp [← hcs])) s.toChar_not_mem_blanks
  | @lexeme gap cs l ls hgap hl hrest ih =>
      rcases append_eq_append_cons hcs.symm with ⟨rest, hfront, rfl⟩ | ⟨before, rfl, htail⟩
      · rcases append_eq_append_cons hfront with ⟨rest, rfl, -⟩ | ⟨before, rfl, htext⟩
        · exact absurd (hgap (by simp)) s.toChar_not_mem_blanks
        · obtain ⟨rfl, rfl, rfl⟩ := hl.eq_symbol htext
          exact ⟨[], ls, rfl, by simpa using .blank hgap, hrest⟩
      · obtain ⟨ms, ns, rfl, hbefore, hafter⟩ := ih htail.symm
        exact ⟨l :: ms, ns, rfl, .lexeme hgap hl hbefore, hafter⟩

namespace Cursor

/-- Matched lexemes up to the end of a text split it. -/
theorem Reads.splits {c last : Cursor} {ps : List Placed} (h : Reads c ps last)
    (hlast : last.skipBlanks.rest = []) : Splits (ps.map Placed.lexeme) c.rest := by
  induction h with
  | done c => exact .blank (subset_blanks_iff.mpr (List.dropWhile_eq_nil_iff.mp hlast))
  | @next c mid last p ps hr hp _ ih =>
      have hread := (read?_eq_some hr).2.2
      have htext : c.rest = c.rest.takeWhile isBlank ++ p.lexeme.text ++ mid.rest := by
        rw [List.append_assoc, Lexeme.read?_append hread]
        exact List.takeWhile_append_dropWhile.symm
      rw [htext]
      exact .lexeme (takeWhile_isBlank_subset _) (Lexeme.read?_proper hread hp) (ih hlast)

theorem isBlank_eq_false_of_mem_head?_skipBlanks {c : Cursor} {b : Char}
    (h : b ∈ c.skipBlanks.rest.head?) : isBlank b = false :=
  eq_false_of_mem_head?_dropWhile h

theorem skipBlanks_eq {c : Cursor} {gap cs : List Char} (hc : c.rest = gap ++ cs)
    (hgap : gap ⊆ blanks) (hcs : ∀ b ∈ cs.head?, isBlank b = false) :
    c.skipBlanks = ⟨c.offset + byteLength gap, cs⟩ := by
  rw [subset_blanks_iff] at hgap
  rw [skipBlanks, hc, List.takeWhile_append_of_pos hgap, List.dropWhile_append_of_pos hgap,
    takeWhile_eq_nil_of_head? hcs, dropWhile_eq_self_of_head? hcs, List.append_nil]

/-- The first lexeme of a split text is read, if the rest of the text does not continue it. -/
theorem read?_of_splits {c : Cursor} {gap cs : List Char} {l : Lexeme}
    (hc : c.rest = gap ++ l.text ++ cs) (hgap : gap ⊆ blanks) (hl : l.Proper)
    (hend : l.StopsBefore cs) :
    c.read? = some (⟨l, c.offset + byteLength gap⟩,
      ⟨c.offset + byteLength gap + byteLength l.text, cs⟩) := by
  obtain ⟨b, bs, htext, hb⟩ := hl.exists_text_eq_cons
  have hskip : c.skipBlanks = ⟨c.offset + byteLength gap, l.text ++ cs⟩ := by
    refine skipBlanks_eq (hc.trans (List.append_assoc _ _ _)) hgap ?_
    simp [htext, hb]
  rw [read?, hskip, Lexeme.read?_text_append hl hend]
  rfl

/-- However a text is split, reading finds the same lexemes, unless two numerals stand side by
side. -/
theorem exists_reads_of_splits {ls : List Lexeme} {c : Cursor} (h : Splits ls c.rest)
    (happart : ls.IsChain Lexeme.Apart) :
    ∃ ps last, Reads c ps last ∧ ps.map Placed.lexeme = ls ∧ last.lexemes = [] := by
  generalize hc : c.rest = cs at h
  induction h generalizing c with
  | @blank gap hgap =>
      refine ⟨[], c, .done c, rfl, lexemes_of_read?_eq_none ?_⟩
      rw [read?_eq_none_iff, skipBlanks, hc]
      exact List.dropWhile_eq_nil_iff.mpr (subset_blanks_iff.mp hgap)
  | @lexeme gap cs l ls hgap hl hrest ih =>
      have hend : l.StopsBefore cs := by
        cases l with
        | numeral n =>
            refine (hrest.endsBefore ?_).stopsBefore n
            rintro l' hl' n' rfl
            exact (List.isChain_cons.mp happart).1 _ hl'
        | symbol s => trivial
        | unmatched u => trivial
      have hread := read?_of_splits hc hgap hl hend
      obtain ⟨ps, last, hps, hmap, hlast⟩ :=
        ih (c := ⟨c.offset + byteLength gap + byteLength l.text, cs⟩) happart.tail rfl
      exact ⟨_ :: ps, last, .next hread hl.isMatched hps, by simp [hmap], hlast⟩

/-! ## Other texts after a place -/

/-- The text from a place to the end of a lexeme read there. The same lexeme is read there in front
of any other text that does not make it longer. -/
theorem exists_text_of_read? {c mid : Cursor} {p : Placed} (h : c.read? = some (p, mid))
    (hp : p.lexeme.isMatched) :
    ∃ text, text ≠ [] ∧ c.rest = text ++ mid.rest ∧
      ∀ rest, p.lexeme.StopsBefore rest →
        read? ⟨c.offset, text ++ rest⟩ = some (p, ⟨mid.offset, rest⟩) := by
  obtain ⟨l, start⟩ := p
  obtain ⟨hstart, hstop, hread⟩ := read?_eq_some h
  obtain rfl : start = c.skipBlanks.offset := hstart
  refine ⟨c.rest.takeWhile isBlank ++ l.text, ?_, ?_, ?_⟩
  · simp [Lexeme.read?_text_ne_nil hread]
  · rw [List.append_assoc, Lexeme.read?_append hread]
    exact List.takeWhile_append_dropWhile.symm
  · intro rest hend
    rw [hstop]
    exact read?_of_splits rfl (takeWhile_isBlank_subset _) (Lexeme.read?_proper hread hp) hend

/-- The text between two places. The same lexemes are read there in front of any other text that
does not make the last of them longer. -/
theorem Reads.exists_text {c last : Cursor} {ps : List Placed} (h : Reads c ps last) :
    ∃ text, (ps = [] ↔ text = []) ∧ c.rest = text ++ last.rest ∧
      ∀ rest, (∀ p ∈ ps.getLast?, p.lexeme.StopsBefore rest) →
        Reads ⟨c.offset, text ++ rest⟩ ps ⟨last.offset, rest⟩ := by
  induction h with
  | done c =>
      refine ⟨[], by simp, rfl, ?_⟩
      intro rest _
      exact .done _
  | @next c mid last p ps hr hp hreads ih =>
      obtain ⟨front, hne, hfront, hfirst⟩ := exists_text_of_read? hr hp
      obtain ⟨text, hnil, htext, hothers⟩ := ih
      refine ⟨front ++ text, by simp [hne], by rw [hfront, htext, List.append_assoc], ?_⟩
      intro rest hrest
      rw [List.append_assoc]
      cases ps with
      | nil =>
          obtain rfl := hnil.mp rfl
          exact .next (hfirst _ (hrest p rfl)) hp (hothers rest (by simp))
      | cons q qs =>
          -- The text after the first lexeme starts with the same character as before.
          obtain ⟨b, bs, rfl⟩ := List.exists_cons_of_ne_nil (mt hnil.mpr (by simp))
          have hend : p.lexeme.StopsBefore mid.rest :=
            Lexeme.read?_stopsBefore (read?_eq_some hr).2.2
          exact .next (hfirst _ (hend.of_head?_eq (by rw [htext]; rfl))) hp
            (hothers rest (by simpa using hrest))

/-- The last lexeme before a place is not made longer by the text from there on. -/
theorem Reads.stopsBefore {c last : Cursor} {ps : List Placed} (h : Reads c ps last) :
    ∀ p ∈ ps.getLast?, p.lexeme.StopsBefore last.rest := by
  induction h with
  | done c => simp
  | @next c mid last p ps hr hp hreads ih =>
      cases hreads with
      | done => simpa using Lexeme.read?_stopsBefore (read?_eq_some hr).2.2
      | next => simpa using ih

/-- A text from the start of a source on that consists of these lexemes and of the blanks `gap`
after them, whatever follows it without making the last lexeme longer. -/
structure Fronts (front gap : List Char) (ps : List Placed) (last : Nat) : Prop where
  blank : gap ⊆ blanks
  reads : ∀ rest, (∀ p ∈ ps.getLast?, p.lexeme.StopsBefore (gap ++ rest)) →
    Reads (first (front ++ rest)) ps ⟨last, gap ++ rest⟩

/-- A source is divided at the first character that is not blank after a place. -/
theorem Reads.exists_fronts {source : List Char} {ps : List Placed} {last : Cursor}
    (h : Reads (first source) ps last) :
    ∃ front gap, Fronts front gap ps last.offset ∧ last.rest = gap ++ last.skipBlanks.rest ∧
      front ++ last.skipBlanks.rest = source ∧ byteLength front = last.skipBlanks.offset := by
  obtain ⟨text, -, htext, hother⟩ := h.exists_text
  obtain ⟨before, hbefore, hlength⟩ := (h.liesIn (liesIn_first source)).skipBlanks
  have hrest : last.rest = last.rest.takeWhile isBlank ++ last.skipBlanks.rest :=
    List.takeWhile_append_dropWhile.symm
  obtain rfl : before = text ++ last.rest.takeWhile isBlank := by
    rw [← List.append_left_inj last.skipBlanks.rest, hbefore, List.append_assoc, ← hrest]
    exact htext
  refine ⟨_, _, ⟨takeWhile_isBlank_subset _, ?_⟩, hrest, hbefore, hlength⟩
  intro rest hend
  rw [List.append_assoc]
  exact hother _ hend

/-- The same lexemes are read if only the text after the next character is another one. -/
theorem Fronts.exists_reads {source front gap : List Char} {ps : List Placed} {last : Cursor}
    {c : Char} {cs : List Char} (hf : Fronts front gap ps last.offset)
    (h : Reads (first source) ps last) (hgap : last.rest = gap ++ last.skipBlanks.rest)
    (hc : last.skipBlanks.rest = c :: cs) (ds : List Char) :
    ∃ other, Reads (first (front ++ c :: ds)) ps other ∧
      other.skipBlanks = ⟨last.skipBlanks.offset, c :: ds⟩ := by
  have hblank : isBlank c = false :=
    isBlank_eq_false_of_mem_head?_skipBlanks (c := last) (by simp [hc])
  have hlast : last.skipBlanks = ⟨last.offset + byteLength gap, last.skipBlanks.rest⟩ :=
    skipBlanks_eq hgap hf.blank fun b hb => isBlank_eq_false_of_mem_head?_skipBlanks hb
  refine ⟨⟨last.offset, gap ++ c :: ds⟩, hf.reads _ ?_, ?_⟩
  · intro p hp
    refine (h.stopsBefore p hp).of_head?_eq ?_
    rw [hgap, hc]
    cases gap <;> rfl
  · rw [hlast]
    exact skipBlanks_eq rfl hf.blank (by simp [hblank])

end Cursor

end FourFunction
