import FourFunction.Expr.Walk
import FourFunction.Proofs.Precedence
import Mathlib.Logic.ExistsUnique
import Mathlib.Logic.Relation

/-! The walk over a tree comes to its value. No move changes what a walk comes to in the end, so a
walk that has started with a tree never meets an operator without its operands. -/

namespace FourFunction.Expr.Walk

open Relation (ReflTransGen)

variable {meaning : Operator → Float → Float → Float} {w w' : Walk}

/-! ## Moves -/

/-- A move does not change the result. -/
theorem Moves.run_eq (h : Moves meaning w w') :
    run meaning w.steps w.operands = run meaning w'.steps w'.operands := by
  cases h with
  | literal => rw [run]
  | binary => rw [run]
  | apply => rw [run]

theorem Moves.eq_of_moves {v : Walk} (h : Moves meaning w w') (h' : Moves meaning w v) :
    w' = v := by
  cases h with
  | literal => cases h' with | literal => rfl
  | binary => cases h' with | binary => rfl
  | apply => cases h' with | apply => rfl

theorem run_eq_of_reaches (h : ReflTransGen (Moves meaning) w w') :
    run meaning w.steps w.operands = run meaning w'.steps w'.operands := by
  induction h with
  | refl => rfl
  | tail _ hmove ih => exact ih.trans hmove.run_eq

theorem Moves.cost_lt (h : Moves meaning w w') : w'.cost < w.cost := by
  cases h with
  | literal => simp [cost, Step.cost, size]
  | binary =>
      simp [cost, Step.cost, size]
      omega
  | apply => simp [cost, Step.cost]

/-- No walk goes on for ever. -/
theorem wellFounded_moves : WellFounded fun w' w => Moves meaning w w' :=
  Subrelation.wf Moves.cost_lt (measure cost).wf

/-- The steps are performed as a walk moves, and there is a result if the walk comes to an end. -/
theorem run_eq_some_iff {values : List Float} :
    run meaning w.steps w.operands = some values ↔
      ReflTransGen (Moves meaning) w ⟨[], values⟩ := by
  constructor
  · intro h
    obtain ⟨steps, operands⟩ := w
    simp only at h
    fun_induction run meaning steps operands with
    | case1 operands =>
        obtain rfl := Option.some.inj h
        exact .refl
    | case2 operands v steps ih => exact .head .literal (ih h)
    | case3 operands op left right steps ih => exact .head .binary (ih h)
    | case4 op steps right left operands ih => exact .head .apply (ih h)
    | case5 => simp at h
  · intro h
    rw [run_eq_of_reaches h, run]

/-! ## Walks over a tree -/

theorem run_of_reaches {e : Expr} (h : ReflTransGen (Moves meaning) (start e) w) :
    run meaning w.steps w.operands = some [e.value meaning] := by
  rw [← run_eq_of_reaches h, start, run_visit, run]

/-- An operator that is applied finds both of its operands. -/
theorem exists_operands {op : Operator} {steps : List Step} {operands values : List Float}
    (h : run meaning (.apply op :: steps) operands = some values) :
    ∃ right left below, operands = right :: left :: below := by
  cases operands with
  | nil => simp [run] at h
  | cons right operands =>
      cases operands with
      | nil => simp [run] at h
      | cons left below => exact ⟨right, left, below, rfl⟩

/-- A walk with a result that is not at its end goes on. -/
theorem exists_moves {values : List Float} (hsteps : w.steps ≠ [])
    (h : run meaning w.steps w.operands = some values) : ∃ w', Moves meaning w w' := by
  obtain ⟨steps, operands⟩ := w
  obtain ⟨step, steps, rfl⟩ := List.exists_cons_of_ne_nil hsteps
  cases step with
  | visit e =>
      cases e with
      | literal v => exact ⟨_, .literal⟩
      | binary op left right => exact ⟨_, .binary⟩
  | apply op =>
      obtain ⟨right, left, below, rfl⟩ := exists_operands h
      exact ⟨_, .apply⟩

/-- What becomes of the walk over a tree under a meaning of the operators: it comes to an end with
the value of the tree as its only operand, and wherever it stands before there is one way to go
on. -/
structure FindsValue (meaning : Operator → Float → Float → Float) (e : Expr) : Prop where
  value : e.evaluateWith meaning = e.value meaning
  result_iff : ∀ values, run meaning [.visit e] [] = some values ↔
    ReflTransGen (Moves meaning) (start e) ⟨[], values⟩
  ends : ReflTransGen (Moves meaning) (start e) ⟨[], [e.value meaning]⟩
  finite : Acc (fun w' w => Moves meaning w w') (start e)
  moves : ∀ w, ReflTransGen (Moves meaning) (start e) w → w.steps ≠ [] → ∃! w', Moves meaning w w'
  operands : ∀ w, ReflTransGen (Moves meaning) (start e) w → ∀ op steps,
    w.steps = .apply op :: steps → ∃ right left below, w.operands = right :: left :: below
  last : ∀ w, ReflTransGen (Moves meaning) (start e) w → w.steps = [] →
    w.operands = [e.value meaning]

/-- Evaluation with a list of steps and a stack of operands is evaluation by recursion. -/
theorem findsValue (e : Expr) :
    e.evaluate = e.value Operator.apply ∧ ∀ meaning, FindsValue meaning e := by
  refine ⟨e.evaluateWith_eq_value Operator.apply, fun meaning => ?_⟩
  exact {
    value := e.evaluateWith_eq_value meaning
    result_iff := fun values => run_eq_some_iff (w := start e)
    ends := run_eq_some_iff.mp (run_of_reaches .refl)
    finite := wellFounded_moves.apply (start e)
    moves := by
      intro w hw hsteps
      obtain ⟨w', hmove⟩ := exists_moves hsteps (run_of_reaches hw)
      exact ⟨w', hmove, fun v hv => hv.eq_of_moves hmove⟩
    operands := by
      intro w hw op steps hsteps
      have hrun := run_of_reaches hw
      rw [hsteps] at hrun
      exact exists_operands hrun
    last := by
      intro w hw hsteps
      have hrun := run_of_reaches hw
      rw [hsteps, run] at hrun
      exact Option.some.inj hrun }

end FourFunction.Expr.Walk
