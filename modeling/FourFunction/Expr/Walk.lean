import FourFunction.Expr.Evaluation

/-! Evaluation one step at a time. A walk over a tree stands with the steps that are pending and the
operands found so far, and a move performs the first pending step. -/

namespace FourFunction.Expr

structure Walk where
  steps : List Step
  operands : List Float

namespace Walk

/-- The walk over a tree before its first move. -/
def start (e : Expr) : Walk :=
  ⟨[.visit e], []⟩

/-- The left operand of an operator is visited before the right one, so the right one is on top when
the operator is applied. Nothing can be done about an operator with fewer than two operands. -/
inductive Moves (meaning : Operator → Float → Float → Float) : Walk → Walk → Prop where
  | literal {v : Float} {steps : List Step} {operands : List Float} :
      Moves meaning ⟨.visit (.literal v) :: steps, operands⟩ ⟨steps, v :: operands⟩
  | binary {op : Operator} {left right : Expr} {steps : List Step} {operands : List Float} :
      Moves meaning ⟨.visit (.binary op left right) :: steps, operands⟩
        ⟨.visit left :: .visit right :: .apply op :: steps, operands⟩
  | apply {op : Operator} {left right : Float} {steps : List Step} {operands : List Float} :
      Moves meaning ⟨.apply op :: steps, right :: left :: operands⟩
        ⟨steps, meaning op left right :: operands⟩

/-- The number of steps to which all that is pending leads. -/
def cost (w : Walk) : Nat :=
  (w.steps.map Step.cost).foldr Nat.add 0

end Walk

end FourFunction.Expr
