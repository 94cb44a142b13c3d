import FourFunction.Text.Bytes

/-! The rest of a text from a byte offset on. There is one only if the offset lies between two
characters or at an end of the text. -/

namespace FourFunction.Text

/-- The text from byte `n` on, if a character or the end of the text is found there. -/
def suffix? : Nat → List Char → Option (List Char)
  | 0, cs => some cs
  | _ + 1, [] => none
  | n + 1, c :: cs => if c.utf8Size ≤ n + 1 then suffix? (n + 1 - c.utf8Size) cs else none

/-- A byte offset within a source, or at its end, that is not inside of a character. -/
def IsBoundary (source : String) (n : Nat) : Prop :=
  (String.Pos.Raw.mk n).IsValid source

theorem suffix?_byteLength_append (xs ys : List Char) :
    suffix? (byteLength xs) (xs ++ ys) = some ys := by
  induction xs with
  | nil => rw [byteLength_nil, List.nil_append, suffix?]
  | cons c cs ih =>
      obtain ⟨n, hn⟩ : ∃ n, c.utf8Size + byteLength cs = n + 1 :=
        Nat.exists_eq_succ_of_ne_zero (by have := c.utf8Size_pos; omega)
      rw [byteLength_cons, List.cons_append, hn, suffix?, ← hn, if_pos (Nat.le_add_right _ _),
        Nat.add_sub_cancel_left, ih]

theorem exists_of_suffix?_eq_some {n : Nat} {cs after : List Char} (h : suffix? n cs = some after) :
    ∃ before, before ++ after = cs ∧ byteLength before = n := by
  induction cs generalizing n with
  | nil =>
      cases n with
      | zero => exact ⟨[], (Option.some.inj h).symm, rfl⟩
      | succ n => simp [suffix?] at h
  | cons c cs ih =>
      cases n with
      | zero => exact ⟨[], (Option.some.inj h).symm, rfl⟩
      | succ n =>
          rw [suffix?] at h
          split at h
          next hle =>
            obtain ⟨before, hbefore, hlength⟩ := ih h
            refine ⟨c :: before, by rw [List.cons_append, hbefore], ?_⟩
            rw [byteLength_cons, hlength, Nat.add_sub_cancel' hle]
          · simp at h

theorem suffix?_eq_some_iff {n : Nat} {cs after : List Char} :
    suffix? n cs = some after ↔ ∃ before, before ++ after = cs ∧ byteLength before = n := by
  constructor
  · exact exists_of_suffix?_eq_some
  · rintro ⟨before, rfl, rfl⟩
    exact suffix?_byteLength_append before after

theorem utf8ByteSize_ofList (cs : List Char) : (String.ofList cs).utf8ByteSize = byteLength cs := by
  induction cs with
  | nil => rfl
  | cons c cs ih =>
      rw [String.ofList_cons, String.utf8ByteSize_append, String.utf8ByteSize_singleton, ih,
        byteLength_cons]

theorem utf8ByteSize_eq (s : String) : s.utf8ByteSize = byteLength s.toList := by
  rw [← utf8ByteSize_ofList, String.ofList_toList]

/-- The boundaries of a source are the offsets from which on there is a text. -/
theorem isBoundary_iff {source : String} {n : Nat} :
    IsBoundary source n ↔ ∃ after, suffix? n source.toList = some after := by
  rw [IsBoundary, String.Pos.Raw.isValid_iff_exists_append]
  constructor
  · rintro ⟨front, rear, rfl, hn⟩
    refine ⟨rear.toList, suffix?_eq_some_iff.mpr ⟨front.toList, String.toList_append.symm, ?_⟩⟩
    rw [← utf8ByteSize_eq]
    exact (congrArg String.Pos.Raw.byteIdx hn).symm
  · rintro ⟨after, hafter⟩
    obtain ⟨before, hbefore, rfl⟩ := suffix?_eq_some_iff.mp hafter
    refine ⟨String.ofList before, String.ofList after, ?_, String.Pos.Raw.ext ?_⟩
    · rw [← String.ofList_append, hbefore, String.ofList_toList]
    · exact (utf8ByteSize_ofList before).symm

theorem IsBoundary.le {source : String} {n : Nat} (h : IsBoundary source n) :
    n ≤ source.utf8ByteSize :=
  String.Pos.Raw.IsValid.le_utf8ByteSize h

/-- The é of "aé" takes the bytes 1 and 2. -/
example : suffix? 1 "aé".toList = some ['é'] ∧ suffix? 2 "aé".toList = none := by decide

end FourFunction.Text
