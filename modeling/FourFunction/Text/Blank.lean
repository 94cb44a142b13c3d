/-! The characters that may stand between lexemes. -/

namespace FourFunction.Text

/-- Space, tab, carriage return, line feed and form feed separate lexemes and mean nothing else. -/
def isBlank (c : Char) : Bool :=
  c == ' ' || c == '\t' || c == '\r' || c == '\n' || c == '\x0c'

def blanks : List Char := [' ', '\t', '\r', '\n', '\x0c']

theorem isBlank_eq (c : Char) : isBlank c = decide (c ∈ blanks) := by
  rw [Bool.eq_iff_iff]
  simp [isBlank, blanks, or_assoc]

theorem isBlank_eq_false_iff {c : Char} : isBlank c = false ↔ c ∉ blanks := by
  rw [isBlank_eq, decide_eq_false_iff_not]

theorem subset_blanks_iff {gap : List Char} : gap ⊆ blanks ↔ ∀ c ∈ gap, isBlank c := by
  simp only [isBlank_eq, decide_eq_true_eq]
  rfl

theorem dropWhile_isBlank (cs : List Char) : cs.dropWhile isBlank = cs.dropWhile (· ∈ blanks) :=
  congrArg (List.dropWhile · cs) (funext isBlank_eq)

end FourFunction.Text
