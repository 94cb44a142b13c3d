import FourFunction.Grammar.Frame
import FourFunction.Scanner.Call

/-! What may be done to a scanner in the course of time: calls are made on it, and rules are applied
to it that succeed or fail, in any order. -/

namespace FourFunction.Grammar

inductive Action where
  | call (call : Call)
  | rule (depth : Nat) (category : Category)
  | input

/-- The scanner after an action. -/
def Action.perform (s : Scanner) : Action → Scanner
  | call c => (s.perform c).2
  | rule depth category => ((Grammar.rule depth category).run s).scanner
  | input => (Grammar.input s).scanner

/-- The scanner after all these actions on a fresh one. -/
def reached (source : String) (actions : List Action) : Scanner :=
  actions.foldl Action.perform (Scanner.ofSource source)

end FourFunction.Grammar
