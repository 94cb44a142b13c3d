/-! Everything that can go wrong between a source and its tree. Offsets count bytes from the
start of the source. -/

namespace FourFunction

/-- Misuse of the one place for a token given back. -/
inductive ScanError where
  | nothingToPushBack
  | doublePushBack (offset : Nat)
deriving DecidableEq

/-- The ways in which tokens fail to be an expression. -/
inductive SyntaxError where
  | missingClosingParen (offset : Nat)
  | expectedNumberOrParen (found : String) (offset : Nat)
  | nestingTooDeep (limit : Nat) (offset : Nat)
  | unexpectedTrailingInput (input : String) (offset : Nat)
deriving DecidableEq

inductive ParseError where
  | scan (cause : ScanError)
  | grammar (cause : SyntaxError)
deriving DecidableEq

def ScanError.message : ScanError → String
  | nothingToPushBack => "Scan error: no token has been read, nothing to push back."
  | doublePushBack offset =>
    "Scan error at offset " ++ offset.repr ++ ": only one token can be pushed back."

namespace SyntaxError

def offset : SyntaxError → Nat
  | missingClosingParen offset => offset
  | expectedNumberOrParen _ offset => offset
  | nestingTooDeep _ offset => offset
  | unexpectedTrailingInput _ offset => offset

def complaint : SyntaxError → String
  | missingClosingParen _ => "missing closing parenthesis ')'."
  | expectedNumberOrParen found _ => "expected number or '(' but found " ++ found ++ "."
  | nestingTooDeep limit _ => "parentheses nested deeper than " ++ limit.repr ++ " levels."
  | unexpectedTrailingInput input _ => "unexpected input after expression: " ++ input

def message (e : SyntaxError) : String :=
  "Syntax error at offset " ++ e.offset.repr ++ ": " ++ e.complaint

end SyntaxError

namespace ParseError

def message : ParseError → String
  | scan cause => cause.message
  | grammar cause => cause.message

/-- The place of an error; a token given back before any was read has none. -/
def offset? : ParseError → Option Nat
  | scan .nothingToPushBack => none
  | scan (.doublePushBack offset) => some offset
  | grammar cause => some cause.offset

end ParseError

end FourFunction
