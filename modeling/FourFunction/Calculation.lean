import FourFunction.Decimal.General
import FourFunction.Expr.Evaluation
import FourFunction.Grammar.Nesting

/-! From a source to its tree, its value and its line of output. -/

namespace FourFunction

/-- A failure of either kind is equal to itself only, and successes compare as their values do. -/
def agree {α : Type} [BEq α] : Except ParseError α → Except ParseError α → Bool
  | .ok a, .ok b => a == b
  | .error e, .error e' => decide (e = e')
  | _, _ => false

def parse (source : String) : Except ParseError Expr :=
  (Grammar.input (Scanner.ofSource source)).result

def evaluate (source : String) : Except ParseError Float :=
  (parse source).map Expr.evaluate

def evaluationEvents (source : String) : Array Event :=
  let o := Grammar.input (Scanner.ofSource source)
  match o.result with
  | .ok e => o.events.push (.evaluated source e.evaluate)
  | .error _ => o.events

structure Calculation where
  expression : String
  value : Float

namespace Calculation

/-- Calculations are equal if their texts are the same and their values equal as doubles. -/
instance : BEq Calculation :=
  ⟨fun a b => decide (a.expression = b.expression) && a.value == b.value⟩

/-- The source, an equals sign, and the value in the general format. -/
def line (c : Calculation) : String :=
  c.expression ++ " = " ++ Decimal.generalText c.value

end Calculation

def calculate (source : String) : Except ParseError Calculation :=
  (evaluate source).map fun value => ⟨source, value⟩

theorem calculate_eq_map (source : String) :
    calculate source = (parse source).map fun e => ⟨source, e.evaluate⟩ := by
  rw [calculate, evaluate]
  cases parse source <;> rfl

theorem calculate_of_parse {source : String} {e : Expr} (h : parse source = .ok e) :
    calculate source = .ok ⟨source, e.evaluate⟩ := by
  rw [calculate_eq_map, h]
  rfl

theorem calculate_eq_error_iff {source : String} {cause : ParseError} :
    calculate source = .error cause ↔ parse source = .error cause := by
  rw [calculate_eq_map]
  cases parse source <;> simp [Except.map]

theorem exists_parse_of_calculate {source : String} {c : Calculation}
    (h : calculate source = .ok c) :
    ∃ e, parse source = .ok e ∧ c = ⟨source, e.evaluate⟩ := by
  cases hp : parse source with
  | ok e =>
      rw [calculate_of_parse hp] at h
      exact ⟨e, rfl, (Except.ok.inj h).symm⟩
  | error cause => simp [calculate_eq_error_iff.mpr hp] at h

end FourFunction
