import FourFunction.Decimal.Shortest
import FourFunction.Lexeme

/-! Tokens: what a grammar rule sees of a lexeme. The end of the input and a character that fits
nowhere are the same token. -/

namespace FourFunction

inductive Token where
  | number (value : Float)
  | symbol (s : Symbol)
  | endOfInput

namespace Lexeme

/-- The token of a lexeme; an unmatched character has none. -/
def token? : Lexeme → Option Token
  | numeral n => some (.number n.value)
  | symbol s => some (.symbol s)
  | unmatched _ => none

/-- What a lexeme is read as. An unmatched character is read as the end of the input. -/
def token : Lexeme → Token
  | numeral n => .number n.value
  | symbol s => .symbol s
  | unmatched _ => .endOfInput

def isMatched : Lexeme → Bool
  | unmatched _ => false
  | _ => true

/-- The matched lexemes have a token, the one that they are read as, and the others have none. -/
theorem token?_eq (l : Lexeme) : l.token? = if l.isMatched then some l.token else none := by
  cases l <;> rfl

end Lexeme

namespace Token

def describe : Token → String
  | number value => "number " ++ Decimal.plainText value
  | symbol s => s.quoted
  | endOfInput => "end of input"

/-- The operator that continues a chain of one level, if a token is one. -/
def operatorOf? (level : Level) : Token → Option Operator
  | symbol (.operator op) => if op.level = level then some op else none
  | _ => none

end Token

end FourFunction
