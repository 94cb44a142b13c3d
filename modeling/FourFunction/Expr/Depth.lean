import FourFunction.Expr.Basic

/-! The height of a tree, found from a list of pending nodes. -/

namespace FourFunction.Expr

/-- The height of a tree by recursion on its shape; a literal has height one. -/
def height : Expr → Nat
  | literal _ => 1
  | binary _ left right => max left.height right.height + 1

/-- The largest of `best` and the levels of all nodes below the pending ones, each pending node
standing at its own level. -/
def deepest (best : Nat) : List (Expr × Nat) → Nat
  | [] => best
  | (literal _, level) :: pending => deepest (max best level) pending
  | (binary _ left right, level) :: pending =>
    deepest (max best level) ((right, level + 1) :: (left, level + 1) :: pending)
termination_by pending => (pending.map fun p => p.1.size).foldr Nat.add 0
decreasing_by all_goals simp [size] <;> omega

/-- A pending node contributes its level and the levels of its height. -/
theorem deepest_cons (e : Expr) (best level : Nat) (pending : List (Expr × Nat)) :
    deepest best ((e, level) :: pending) = deepest (max best (level + e.height - 1)) pending := by
  induction e generalizing best level pending with
  | literal v => rw [deepest, height, Nat.add_sub_cancel]
  | binary op left right ihl ihr =>
    rw [deepest, ihr, ihl, height]
    congr 1
    omega

def depth (e : Expr) : Nat :=
  deepest 0 [(e, 1)]

end FourFunction.Expr
