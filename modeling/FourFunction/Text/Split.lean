import Mathlib.Data.List.Basic

/-! Texts cut in two at a mark, which belongs to neither part. -/

namespace FourFunction.Text

/-- The parts of a text before and after the first place of a character. -/
def splitFirst? (mark : Char) : List Char → Option (List Char × List Char)
  | [] => none
  | c :: cs =>
    if c = mark then some ([], cs)
    else (splitFirst? mark cs).map fun (before, after) => (c :: before, after)

/-- The parts of a text before and after the last place of a piece of text. -/
def splitLast? (mark : List Char) : List Char → Option (List Char × List Char)
  | [] => if mark = [] then some ([], []) else none
  | c :: cs =>
    match splitLast? mark cs with
    | some (before, after) => some (c :: before, after)
    | none => (mark.isPrefixOf? (c :: cs)).map fun after => ([], after)

theorem splitFirst?_append_cons {mark : Char} {before : List Char} (h : mark ∉ before)
    (after : List Char) : splitFirst? mark (before ++ mark :: after) = some (before, after) := by
  induction before with
  | nil => rw [List.nil_append, splitFirst?, if_pos rfl]
  | cons c cs ih =>
      rw [List.mem_cons, not_or] at h
      rw [List.cons_append, splitFirst?, if_neg (Ne.symm h.1), ih h.2]
      rfl

/-- What is found are parts of the text. -/
theorem exists_of_splitLast?_eq_some {mark cs before after : List Char}
    (h : splitLast? mark cs = some (before, after)) : before ++ mark ++ after = cs := by
  induction cs generalizing before with
  | nil =>
      rw [splitLast?] at h
      split at h
      next hmark =>
        obtain ⟨rfl, rfl⟩ := Prod.mk.inj (Option.some.inj h)
        simpa using hmark
      · simp at h
  | cons c cs ih =>
      rw [splitLast?] at h
      split at h
      next before' after' hlast =>
        obtain ⟨rfl, rfl⟩ := Prod.mk.inj (Option.some.inj h)
        rw [List.cons_append, List.cons_append, ih hlast]
      · obtain ⟨rest, hrest, heq⟩ := Option.map_eq_some_iff.mp h
        obtain ⟨rfl, rfl⟩ := Prod.mk.inj heq
        exact List.isPrefixOf?_eq_some_iff_append_eq.mp hrest

/-- A place is the last one if the mark does not begin anywhere after it. -/
theorem splitLast?_append {mark after : List Char} {c : Char}
    (h : ¬ c :: mark <:+: mark ++ after) (before : List Char) :
    splitLast? (c :: mark) (before ++ c :: mark ++ after) = some (before, after) := by
  induction before with
  | nil =>
      have hnone : splitLast? (c :: mark) (mark ++ after) = none := by
        cases hlast : splitLast? (c :: mark) (mark ++ after) with
        | none => rfl
        | some parts => exact absurd ⟨_, _, exists_of_splitLast?_eq_some hlast⟩ h
      have hfound : (c :: mark).isPrefixOf? (c :: (mark ++ after)) = some after :=
        List.isPrefixOf?_eq_some_iff_append_eq.mpr rfl
      rw [List.nil_append, List.cons_append, splitLast?, hnone]
      simp only
      rw [hfound]
      rfl
  | cons b before ih =>
      rw [List.append_assoc] at ih
      rw [List.cons_append, List.cons_append, List.append_assoc, splitLast?, ih]

end FourFunction.Text
