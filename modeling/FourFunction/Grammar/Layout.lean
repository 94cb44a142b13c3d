import FourFunction.Grammar.Verdict

/-! The verdict on lexemes alone, without the blanks around them. A fault is found at a lexeme with
a number, and a source says at which byte that lexeme starts. -/

namespace FourFunction.Grammar

open Text

/-- What is wrong at a lexeme, wherever that lexeme stands. -/
inductive Fault where
  | missingClosingParen
  | expectedNumberOrParen (found : String)
  | nestingTooDeep (limit : Nat)
  | unexpectedTrailingInput
deriving DecidableEq

/-- The error for a fault at byte `start` of a source. Trailing input is the text from there on. -/
def Fault.report (source : List Char) (start : Nat) : Fault → SyntaxError
  | missingClosingParen => .missingClosingParen start
  | expectedNumberOrParen found => .expectedNumberOrParen found start
  | nestingTooDeep limit => .nestingTooDeep limit start
  | unexpectedTrailingInput =>
    .unexpectedTrailingInput (String.ofList (dropBytes start source)) start

/-- The byte at which lexeme `index` of a source starts. After the last lexeme comes the end of the
source. -/
def startOf (source : String) (index : Nat) : Nat :=
  ((lexemes source)[index]?.map Placed.start).getD (byteLength source.toList)

namespace Stage

/-- What is wrong if a token may not come next. -/
def fault : Stage → Token → Fault
  | ⟨.operand, _⟩, .symbol .leftParen => .nestingTooDeep maxNesting
  | ⟨.operand, _⟩, token => .expectedNumberOrParen token.describe
  | ⟨.operator, 0⟩, _ => .unexpectedTrailingInput
  | ⟨.operator, _ + 1⟩, _ => .missingClosingParen

/-- The verdict on lexemes of which the first has the number `index`: the first fault and the number
of its lexeme, or acceptance. -/
def assess (stage : Stage) (index : Nat) : List Lexeme → Except (Fault × Nat) Unit
  | [] => if stage = ⟨.operator, 0⟩ then .ok () else .error (stage.fault .endOfInput, index)
  | l :: ls =>
    match stage.advance l.token with
    | some next => next.assess (index + 1) ls
    | none => .error (stage.fault l.token, index)

end Stage

end FourFunction.Grammar
