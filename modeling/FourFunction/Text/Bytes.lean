/-! Lengths of texts in UTF-8 bytes. Offsets into a source count bytes, so the offset of a
place is the byte length of the text before it. -/

namespace FourFunction.Text

/-- The number of bytes of a text in UTF-8. -/
def byteLength : List Char → Nat
  | [] => 0
  | c :: cs => c.utf8Size + byteLength cs

@[simp] theorem byteLength_nil : byteLength [] = 0 := rfl

@[simp] theorem byteLength_cons (c : Char) (cs : List Char) :
    byteLength (c :: cs) = c.utf8Size + byteLength cs := rfl

@[simp] theorem byteLength_append (xs ys : List Char) :
    byteLength (xs ++ ys) = byteLength xs + byteLength ys := by
  induction xs with
  | nil => simp
  | cons c cs ih => simp [ih, Nat.add_assoc]

theorem byteLength_pos {cs : List Char} (h : cs ≠ []) : 0 < byteLength cs := by
  cases cs with
  | nil => exact absurd rfl h
  | cons c cs => exact Nat.add_pos_left c.utf8Size_pos _

def dropBytes : Nat → List Char → List Char
  | 0, cs => cs
  | _ + 1, [] => []
  | n + 1, c :: cs => dropBytes (n + 1 - c.utf8Size) cs

@[simp] theorem dropBytes_zero (cs : List Char) : dropBytes 0 cs = cs := by
  cases cs <;> rfl

/-- The text after a part of a text starts at the byte length of that part. -/
@[simp] theorem dropBytes_byteLength_append (xs ys : List Char) :
    dropBytes (byteLength xs) (xs ++ ys) = ys := by
  induction xs with
  | nil => simp
  | cons c cs ih =>
      obtain ⟨n, hn⟩ : ∃ n, c.utf8Size + byteLength cs = n + 1 :=
        Nat.exists_eq_succ_of_ne_zero (by have := c.utf8Size_pos; omega)
      rw [byteLength_cons, List.cons_append, hn, dropBytes, ← hn, Nat.add_sub_cancel_left, ih]

end FourFunction.Text
