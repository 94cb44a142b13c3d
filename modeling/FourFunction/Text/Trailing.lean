/-! Removal of a run of characters at the end of a text. -/

namespace FourFunction.Text

/-- Drops the longest run of characters satisfying `p` at the end of a text. -/
def dropTrailing (p : Char → Bool) (cs : List Char) : List Char :=
  (cs.reverse.dropWhile p).reverse

@[simp] theorem dropTrailing_nil (p : Char → Bool) : dropTrailing p [] = [] := rfl

theorem dropTrailing_concat_pos {p : Char → Bool} {c : Char} (h : p c = true) (cs : List Char) :
    dropTrailing p (cs ++ [c]) = dropTrailing p cs := by
  simp [dropTrailing, h]

theorem dropTrailing_concat_neg {p : Char → Bool} {c : Char} (h : p c = false) (cs : List Char) :
    dropTrailing p (cs ++ [c]) = cs ++ [c] := by
  simp [dropTrailing, h]

end FourFunction.Text
