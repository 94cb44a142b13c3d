import FourFunction.Token
import FourFunction.Cursor
import Mathlib.Data.List.Basic

/-! Places of a source, and the lexemes that lie between two of them. Reading can start anew at
every place it has led to, so the lexemes from a place on are those of one pass over the source
from that place. -/

namespace FourFunction

open Text

theorem Lexeme.read?_eq_none_iff (cs : List Char) : Lexeme.read? cs = none ↔ cs = [] := by
  cases cs with
  | nil => simp
  | cons c cs =>
      simp only [Lexeme.read?, reduceCtorEq, iff_false]
      split
      · simp
      · split <;> simp

namespace Cursor

/-! ## One lexeme -/

theorem read?_eq_none_iff (c : Cursor) : c.read? = none ↔ c.skipBlanks.rest = [] := by
  rw [← Lexeme.read?_eq_none_iff, read?]
  split <;> simp_all

theorem lexemes_of_read?_eq_none {c : Cursor} (h : c.read? = none) : c.lexemes = [] := by
  rw [lexemes]
  split <;> simp_all

theorem lexemes_of_read?_eq_some {c mid : Cursor} {p : Placed} (h : c.read? = some (p, mid)) :
    c.lexemes = p :: mid.lexemes := by
  rw [lexemes]
  split <;> simp_all

/-! ## Places of a source -/

/-- The offset of a place counts the bytes before the text that is left. -/
def LiesIn (source : List Char) (c : Cursor) : Prop :=
  ∃ before, before ++ c.rest = source ∧ byteLength before = c.offset

theorem liesIn_first (source : List Char) : LiesIn source (first source) :=
  ⟨[], rfl, rfl⟩

theorem LiesIn.skipBlanks {source : List Char} {c : Cursor} (h : LiesIn source c) :
    LiesIn source c.skipBlanks := by
  obtain ⟨before, hb, hl⟩ := h
  refine ⟨before ++ c.rest.takeWhile isBlank, ?_, ?_⟩
  · rw [← hb, List.append_assoc]
    exact congrArg _ List.takeWhile_append_dropWhile
  · rw [byteLength_append, hl]
    rfl

theorem LiesIn.read? {source : List Char} {c mid : Cursor} {p : Placed} (h : LiesIn source c)
    (hr : c.read? = some (p, mid)) : LiesIn source mid := by
  obtain ⟨before, hb, hl⟩ := h.skipBlanks
  obtain ⟨hs, ho, ht⟩ := read?_eq_some hr
  refine ⟨before ++ p.lexeme.text, ?_, ?_⟩
  · rw [← hb, ← Lexeme.read?_append ht, List.append_assoc]
  · rw [byteLength_append, hl, ho, Placed.stop, hs]

/-- The text left at a place is the text of the source from its offset on. -/
theorem LiesIn.dropBytes_eq {source : List Char} {c : Cursor} (h : LiesIn source c) :
    dropBytes c.offset source = c.rest := by
  obtain ⟨before, hb, hl⟩ := h
  rw [← hb, ← hl, dropBytes_byteLength_append]

theorem LiesIn.offset_eq_byteLength_iff {source : List Char} {c : Cursor} (h : LiesIn source c) :
    c.offset = byteLength source ↔ c.rest = [] := by
  obtain ⟨before, hb, hl⟩ := h
  rw [← hb, ← hl, byteLength_append]
  cases hr : c.rest with
  | nil => simp
  | cons x xs =>
      have hx := x.utf8Size_pos
      simp only [byteLength_cons, reduceCtorEq, iff_false]
      omega

theorem LiesIn.skipBlanks_offset_of_read?_eq_none {source : List Char} {c : Cursor}
    (h : LiesIn source c) (hr : c.read? = none) : c.skipBlanks.offset = byteLength source :=
  h.skipBlanks.offset_eq_byteLength_iff.mpr ((read?_eq_none_iff c).mp hr)

/-! ## Runs of matched lexemes -/

/-- These lexemes, all matched, lie between two places with nothing but blanks around them. -/
inductive Reads : Cursor → List Placed → Cursor → Prop where
  | done (c : Cursor) : Reads c [] c
  | next {c mid last : Cursor} {p : Placed} {ps : List Placed} :
      c.read? = some (p, mid) → p.lexeme.isMatched → Reads mid ps last →
      Reads c (p :: ps) last

theorem Reads.single {c last : Cursor} {p : Placed} (hr : c.read? = some (p, last))
    (hp : p.lexeme.isMatched) : Reads c [p] last :=
  .next hr hp (.done last)

theorem Reads.append {c mid last : Cursor} {ps qs : List Placed} (h : Reads c ps mid)
    (h' : Reads mid qs last) : Reads c (ps ++ qs) last := by
  induction h with
  | done => exact h'
  | next hr hp _ ih => exact .next hr hp (ih h')

theorem Reads.read?_single {c last : Cursor} {p : Placed} (h : Reads c [p] last) :
    c.read? = some (p, last) := by
  cases h with
  | next hr _ hlast =>
      cases hlast with
      | done => exact hr

theorem Reads.isMatched_single {c last : Cursor} {p : Placed} (h : Reads c [p] last) :
    p.lexeme.isMatched := by
  cases h with
  | next _ hp _ => exact hp

theorem Reads.exists_of_append {c last : Cursor} {ps qs : List Placed}
    (h : Reads c (ps ++ qs) last) : ∃ mid, Reads c ps mid ∧ Reads mid qs last := by
  induction ps generalizing c with
  | nil => exact ⟨c, .done c, h⟩
  | cons p ps ih =>
      cases h with
      | next hr hp hrest =>
          obtain ⟨mid, hmid, hlast⟩ := ih hrest
          exact ⟨mid, .next hr hp hmid, hlast⟩

theorem Reads.lexemes_eq {c last : Cursor} {ps : List Placed} (h : Reads c ps last) :
    c.lexemes = ps ++ last.lexemes := by
  induction h with
  | done => rfl
  | next hr _ _ ih => rw [lexemes_of_read?_eq_some hr, ih, List.cons_append]

theorem Reads.liesIn {source : List Char} {c last : Cursor} {ps : List Placed}
    (h : Reads c ps last) (hc : LiesIn source c) : LiesIn source last := by
  induction h with
  | done => exact hc
  | next hr _ _ ih => exact ih (hc.read? hr)

theorem Reads.matched {c last : Cursor} {ps : List Placed} (h : Reads c ps last) :
    ∀ p ∈ ps, p.lexeme.isMatched := by
  induction h with
  | done => simp
  | next hr hp _ ih =>
      intro q hq
      rcases List.mem_cons.mp hq with rfl | hq
      · exact hp
      · exact ih q hq

/-- Reading leads to the end of the last lexeme, or nowhere if there is none. -/
theorem Reads.offset_eq {c last : Cursor} {ps : List Placed} (h : Reads c ps last) :
    last.offset = (ps.getLast?.map Placed.stop).getD c.offset := by
  induction h with
  | done => rfl
  | @next c mid last p ps hr _ _ ih =>
      rw [ih, (read?_eq_some hr).2.1]
      cases ps with
      | nil => rfl
      | cons q qs =>
          rw [List.getLast?_cons_cons]
          simp [List.getLast?_cons]

theorem offset_le_skipBlanks (c : Cursor) : c.offset ≤ c.skipBlanks.offset :=
  Nat.le_add_right _ _

theorem skipBlanks_offset_lt {c mid : Cursor} {p : Placed} (h : c.read? = some (p, mid)) :
    c.skipBlanks.offset < mid.offset := by
  obtain ⟨hstart, hstop, hread⟩ := read?_eq_some h
  rw [hstop, Placed.stop, hstart]
  exact Nat.lt_add_of_pos_right (byteLength_pos (Lexeme.read?_text_ne_nil hread))

theorem Reads.offset_le {c last : Cursor} {ps : List Placed} (h : Reads c ps last) :
    c.offset ≤ last.offset := by
  induction h with
  | done => exact Nat.le_refl _
  | @next c mid last p ps hr _ _ ih =>
      have hstep := Nat.le_trans c.offset_le_skipBlanks (Nat.le_of_lt (skipBlanks_offset_lt hr))
      exact Nat.le_trans hstep ih

/-- The matched lexemes in front of what one pass finds from a place can be read from there. -/
theorem exists_reads {c : Cursor} {ps qs : List Placed} (h : c.lexemes = ps ++ qs)
    (hp : ∀ p ∈ ps, p.lexeme.isMatched) : ∃ last, Reads c ps last ∧ last.lexemes = qs := by
  induction ps generalizing c with
  | nil => exact ⟨c, .done c, h⟩
  | cons p ps ih =>
      cases hr : c.read? with
      | none =>
          rw [lexemes_of_read?_eq_none hr] at h
          simp at h
      | some found =>
          obtain ⟨q, mid⟩ := found
          rw [lexemes_of_read?_eq_some hr, List.cons_append, List.cons.injEq] at h
          obtain ⟨rfl, hmid⟩ := h
          obtain ⟨last, hlast, hqs⟩ := ih hmid (fun r hr => hp r (List.mem_cons_of_mem _ hr))
          exact ⟨last, .next hr (hp q (by simp)) hlast, hqs⟩

end Cursor

end FourFunction
