import FourFunction.Operator

/-! The six characters that are lexemes by themselves. -/

namespace FourFunction

inductive Symbol where
  | operator (op : Operator)
  | leftParen
  | rightParen
deriving DecidableEq

namespace Symbol

def toChar : Symbol → Char
  | operator op => op.toChar
  | leftParen => '('
  | rightParen => ')'

def ofChar? : Char → Option Symbol
  | '+' => some (operator .add)
  | '-' => some (operator .sub)
  | '*' => some (operator .mul)
  | '/' => some (operator .div)
  | '(' => some leftParen
  | ')' => some rightParen
  | _ => none

@[simp] theorem ofChar?_toChar (s : Symbol) : ofChar? s.toChar = some s := by
  rcases s with (_ | _ | _ | _) | _ | _ <;> rfl

theorem toChar_of_ofChar? {c : Char} {s : Symbol} (h : ofChar? c = some s) : s.toChar = c := by
  unfold ofChar? at h
  split at h <;> simp_all <;> subst h <;> rfl

/-- Parentheses group and do not compute. -/
def operator? : Symbol → Option Operator
  | operator op => some op
  | leftParen | rightParen => none

/-- A symbol in quotes, as messages name it. -/
def quoted (s : Symbol) : String :=
  String.ofList ['\'', s.toChar, '\'']

end Symbol

end FourFunction
