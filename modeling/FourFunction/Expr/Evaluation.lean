import FourFunction.Expr.Basic

/-! Evaluation of trees with a list of pending steps and a stack of operands, so that a long chain
needs no deep recursion. The operators may be given any meaning. -/

namespace FourFunction.Expr

/-- The value of a tree by recursion on its shape. -/
def value (meaning : Operator → Float → Float → Float) : Expr → Float
  | literal v => v
  | binary op left right => meaning op (left.value meaning) (right.value meaning)

inductive Step where
  | visit (e : Expr)
  | apply (op : Operator)

/-- The number of steps that a pending step leads to. -/
def Step.cost : Step → Nat
  | visit e => 2 * e.size
  | apply _ => 1

/-- Performs the pending steps in order. There is no result if an operator finds fewer than two
operands. -/
def run (meaning : Operator → Float → Float → Float) :
    List Step → List Float → Option (List Float)
  | [], operands => some operands
  | .visit (literal v) :: steps, operands => run meaning steps (v :: operands)
  | .visit (binary op left right) :: steps, operands =>
    run meaning (.visit left :: .visit right :: .apply op :: steps) operands
  | .apply op :: steps, right :: left :: operands =>
    run meaning steps (meaning op left right :: operands)
  | .apply _ :: _, _ => none
termination_by steps => (steps.map Step.cost).foldr Nat.add 0
decreasing_by all_goals simp [Step.cost, size] <;> omega

/-- A visited tree leaves its value on the stack and nothing else. -/
theorem run_visit (meaning : Operator → Float → Float → Float) (e : Expr) (steps : List Step)
    (operands : List Float) :
    run meaning (.visit e :: steps) operands = run meaning steps (e.value meaning :: operands) := by
  induction e generalizing steps operands with
  | literal v => rw [run, value]
  | binary op left right ihl ihr => rw [run, ihl, ihr, run, value]

/-- The value of a tree under a meaning of the operators; not a number if no operand is left. -/
def evaluateWith (meaning : Operator → Float → Float → Float) (e : Expr) : Float :=
  match run meaning [.visit e] [] with
  | some (v :: _) => v
  | _ => 0.0 / 0.0

def evaluate (e : Expr) : Float :=
  e.evaluateWith Operator.apply

end FourFunction.Expr
