import FourFunction.Grammar.Nesting

/-! Acceptance of a source in one pass over its lexemes, with no more memory than the number of
open groups and whether an operand or an operator comes next. -/

namespace FourFunction.Grammar

open Text

inductive Mode where
  | operand
  | operator
deriving DecidableEq

/-- All that the pass remembers: what has to come next, and the number of open groups. -/
structure Stage where
  mode : Mode
  opened : Nat
deriving DecidableEq

namespace Stage

def initial : Stage :=
  ⟨.operand, 0⟩

/-- The stage after a token, if that token may come next. -/
def advance : Stage → Token → Option Stage
  | ⟨.operand, opened⟩, .number _ => some ⟨.operator, opened⟩
  | ⟨.operand, opened⟩, .symbol .leftParen =>
    if opened = maxNesting then none else some ⟨.operand, opened + 1⟩
  | ⟨.operator, opened⟩, .symbol (.operator _) => some ⟨.operand, opened⟩
  | ⟨.operator, opened + 1⟩, .symbol .rightParen => some ⟨.operator, opened⟩
  | _, _ => none

/-- The verdict at a token that may not come next and starts at byte `start` of the source. -/
def stop (source : List Char) : Stage → Token → Nat → Except SyntaxError Unit
  | ⟨.operand, _⟩, .symbol .leftParen, start => .error (.nestingTooDeep maxNesting start)
  | ⟨.operand, _⟩, token, start => .error (.expectedNumberOrParen token.describe start)
  | ⟨.operator, 0⟩, _, start =>
    if start = byteLength source then .ok ()
    else .error (.unexpectedTrailingInput (String.ofList (dropBytes start source)) start)
  | ⟨.operator, _ + 1⟩, _, start => .error (.missingClosingParen start)

/-- The verdict on what is left of a source. An unmatched character is read as the end of the
input, which may never come next. -/
def judge (source : List Char) (stage : Stage) : List Placed → Except SyntaxError Unit
  | [] => stage.stop source .endOfInput (byteLength source)
  | p :: ps =>
    match stage.advance p.lexeme.token with
    | some next => judge source next ps
    | none => stage.stop source p.lexeme.token p.start

end Stage

/-- The verdict on a whole source: the first error, or acceptance. -/
def verdictOf (source : String) : Except SyntaxError Unit :=
  Stage.initial.judge source.toList (lexemes source)

end FourFunction.Grammar
