import FourFunction.Operator
import Mathlib.Data.List.Infix

/-! Parentheses in a text, counted without regard to anything else in it, and what stands outside of
them. -/

namespace FourFunction.Text

/-- The number of parentheses opened in a text, less that of those closed. -/
def depth (cs : List Char) : Int :=
  cs.count '(' - cs.count ')'

/-- The greatest number of parentheses that are open at one place of a text. -/
def peak : List Char → Int
  | [] => 0
  | c :: cs => max 0 (depth [c] + peak cs)

/-- At no place of the text are more than `groups` parentheses open. -/
def NestsAtMost (groups : Nat) (cs : List Char) : Prop :=
  ∀ before, before <+: cs → depth before ≤ groups

/-- No operator of the level stands outside of all parentheses of the text. -/
def OuterFree (level : Level) (cs : List Char) : Prop :=
  ∀ before (op : Operator) after, before ++ op.toChar :: after = cs → depth before = 0 →
    op ∉ level.operators

instance (groups : Nat) (cs : List Char) : Decidable (NestsAtMost groups cs) :=
  decidable_of_iff (∀ before ∈ cs.inits, depth before ≤ groups) (by simp [NestsAtMost])

instance (level : Level) (cs : List Char) : Decidable (OuterFree level cs) :=
  decidable_of_iff
    (∀ before ∈ cs.inits, depth before = 0 → ∀ op ∈ [Operator.add, .sub, .mul, .div],
      (cs.drop before.length).head? = some op.toChar → op ∉ level.operators) <| by
    have hall : ∀ op, op ∈ [Operator.add, .sub, .mul, .div] := by
      intro op
      cases op <;> simp
    constructor
    · rintro h before op after rfl hdepth
      exact h before (by simp) hdepth op (hall op) (by simp)
    · intro h before hbefore hdepth op _ hop
      obtain ⟨rest, rfl⟩ := (List.mem_inits _ _).mp hbefore
      rw [List.drop_left, List.head?_eq_some_iff] at hop
      obtain ⟨after, rfl⟩ := hop
      exact h before op after rfl hdepth

@[simp] theorem depth_nil : depth [] = 0 := rfl

@[simp] theorem depth_append (xs ys : List Char) : depth (xs ++ ys) = depth xs + depth ys := by
  simp only [depth, List.count_append]
  omega

@[simp] theorem depth_leftParen (cs : List Char) : depth ('(' :: cs) = depth cs + 1 := by
  simp [depth]
  omega

@[simp] theorem depth_rightParen (cs : List Char) : depth (')' :: cs) = depth cs - 1 := by
  simp [depth]
  omega

@[simp] theorem depth_toChar (op : Operator) (cs : List Char) :
    depth (op.toChar :: cs) = depth cs := by
  cases op <;> simp [depth, Operator.toChar]

theorem depth_eq_zero {cs : List Char} (h : ∀ c ∈ cs, c ≠ '(' ∧ c ≠ ')') : depth cs = 0 := by
  have hl : '(' ∉ cs := fun hc => (h _ hc).1 rfl
  have hr : ')' ∉ cs := fun hc => (h _ hc).2 rfl
  simp [depth, List.count_eq_zero_of_not_mem hl, List.count_eq_zero_of_not_mem hr]

theorem peak_nonneg (cs : List Char) : 0 ≤ peak cs := by
  cases cs with
  | nil => exact Int.le_refl 0
  | cons c cs =>
      rw [peak]
      omega

theorem peak_append (xs ys : List Char) : peak (xs ++ ys) = max (peak xs) (depth xs + peak ys) := by
  induction xs with
  | nil =>
      have hpeak := peak_nonneg ys
      rw [List.nil_append, peak, depth_nil]
      omega
  | cons x xs ih =>
      have hdepth := depth_append [x] xs
      rw [List.singleton_append] at hdepth
      rw [List.cons_append, peak, peak, ih, hdepth]
      omega

theorem peak_eq_zero {cs : List Char} (h : ∀ c ∈ cs, c ≠ '(' ∧ c ≠ ')') : peak cs = 0 := by
  induction cs with
  | nil => rfl
  | cons c cs ih =>
      rw [List.forall_mem_cons] at h
      rw [peak, ih h.2, depth_eq_zero (by simpa using h.1)]
      rfl

end FourFunction.Text
