import FourFunction.Decimal.Shortest
import FourFunction.Expr.Basic

/-! Trees as fully parenthesized texts, written from a list of pending pieces. -/

namespace FourFunction.Expr

/-- The text of a tree by recursion on its shape. -/
def render : Expr → String
  | literal v => Decimal.plainText v
  | binary op left right => "(" ++ left.render ++ " " ++ op.text ++ " " ++ right.render ++ ")"

inductive Piece where
  | node (e : Expr)
  | operator (op : Operator)
  | close

/-- The number of steps that a pending piece leads to. -/
def Piece.cost : Piece → Nat
  | node e => 3 * e.size
  | operator _ => 1
  | close => 1

/-- Writes the pending pieces in order after the text written so far. -/
def write (written : String) : List Piece → String
  | [] => written
  | .node (literal v) :: pieces => write (written ++ Decimal.plainText v) pieces
  | .node (binary op left right) :: pieces =>
    write (written ++ "(") (.node left :: .operator op :: .node right :: .close :: pieces)
  | .operator op :: pieces => write (written ++ " " ++ op.text ++ " ") pieces
  | .close :: pieces => write (written ++ ")") pieces
termination_by pieces => (pieces.map Piece.cost).foldr Nat.add 0
decreasing_by all_goals simp [Piece.cost, size] <;> omega

/-- A pending node is written as its own text. -/
theorem write_node (e : Expr) (written : String) (pieces : List Piece) :
    write written (.node e :: pieces) = write (written ++ e.render) pieces := by
  induction e generalizing written pieces with
  | literal v => rw [write, render]
  | binary op left right ihl ihr =>
    rw [write, ihl, write, ihr, write, render]
    simp only [String.append_assoc]

/-- The fully parenthesized text of a tree; a lone literal is bare. -/
def text (e : Expr) : String :=
  write "" [.node e]

end FourFunction.Expr
