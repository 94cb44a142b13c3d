import FourFunction.Scanner

/-! Grammar rules as functions on scanners. A rule never leaves more text unread than it found,
and that bound travels with it, so rules that repeat others can be seen to end. -/

namespace FourFunction.Grammar

/-- What applying a rule gives: a tree or an error, the scanner afterwards, and the trace. -/
structure Outcome where
  result : Except ParseError Expr
  scanner : Scanner
  events : Array Event

def Outcome.after (earlier : Array Event) (o : Outcome) : Outcome :=
  { o with events := earlier ++ o.events }

structure Rule where
  run : Scanner → Outcome
  unread_le : ∀ s, (run s).scanner.unread ≤ s.unread

end FourFunction.Grammar
