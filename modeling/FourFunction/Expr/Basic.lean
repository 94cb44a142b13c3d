import FourFunction.Operator

/-! Expression trees. A group has no node of its own. -/

namespace FourFunction

inductive Expr where
  | literal (value : Float)
  | binary (op : Operator) (left right : Expr)

namespace Expr

/-- Equality of trees, with literals compared as doubles: the two zeros are equal, and a tree that
holds a value that is not a number is not equal to itself. -/
def beq : Expr → Expr → Bool
  | literal a, literal b => a == b
  | binary op left right, binary op' left' right' =>
    decide (op = op') && beq left left' && beq right right'
  | _, _ => false

instance : BEq Expr := ⟨beq⟩

def size : Expr → Nat
  | literal _ => 1
  | binary _ left right => left.size + right.size + 1

end Expr

end FourFunction
