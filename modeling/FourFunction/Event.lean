import FourFunction.Cursor
import FourFunction.Expr.Basic

/-! The debug trace: one event for every lexeme read, every token given back and every grammar
rule that succeeds. -/

namespace FourFunction

inductive Event where
  | matched (placed : Placed)
  /-- The text from a cursor on starts, after blanks, with an unmatched character. -/
  | unmatched (cursor : Cursor)
  /-- The scanner went back from one byte offset to an earlier one. -/
  | pushedBack (origin target : Nat)
  | number (value : Float)
  | group (e : Expr)
  /-- A chain of operators of one level ended. -/
  | chain (level : Level) (left : Expr)
  | parsed (e : Expr)
  | evaluated (source : String) (value : Float)

def Event.message : Event → String
  | matched _ => "matched"
  | unmatched _ => "no pattern matched"
  | pushedBack _ _ => "push back"
  | number _ => "factor result (number)"
  | group _ => "factor result"
  | chain .product _ => "term result"
  | chain .sum _ => "expression result"
  | parsed _ => "parse result"
  | evaluated _ _ => "evaluated"

end FourFunction
