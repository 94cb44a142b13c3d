/-! The four operators and their two levels of precedence. -/

namespace FourFunction

/-- Products bind tighter than sums. -/
inductive Level where
  | sum
  | product
deriving DecidableEq

inductive Operator where
  | add
  | sub
  | mul
  | div
deriving DecidableEq

namespace Operator

def toChar : Operator → Char
  | add => '+'
  | sub => '-'
  | mul => '*'
  | div => '/'

/-- The text of an operator between its operands, without the blanks around it. -/
def text (op : Operator) : String :=
  op.toChar.toString

def level : Operator → Level
  | add | sub => .sum
  | mul | div => .product

/-- The value of an operator on doubles: the exact result rounded once. Division by zero gives an
infinity or a value that is not a number. -/
def apply : Operator → Float → Float → Float
  | add, left, right => left + right
  | sub, left, right => left - right
  | mul, left, right => left * right
  | div, left, right => left / right

end Operator

/-! ## The operators of a level -/

namespace Level

def operators : Level → List Operator
  | sum => [.add, .sub]
  | product => [.mul, .div]

@[simp] theorem mem_operators_sum {op : Operator} :
    op ∈ Level.sum.operators ↔ op = .add ∨ op = .sub := by
  simp [operators]

@[simp] theorem mem_operators_product {op : Operator} :
    op ∈ Level.product.operators ↔ op = .mul ∨ op = .div := by
  simp [operators]

end Level

theorem Operator.level_eq_iff {op : Operator} {level : Level} :
    op.level = level ↔ op ∈ level.operators := by
  cases op <;> cases level <;> decide

end FourFunction
