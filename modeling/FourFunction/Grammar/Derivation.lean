import FourFunction.Expr.Basic
import FourFunction.Lexeme

/-! The grammar as a relation between lexemes and trees. The relation does not say how a tree is
found. -/

namespace FourFunction.Grammar

inductive Category where
  | expression
  | term
  | factor
deriving DecidableEq

/-- The lexemes are of the category and stand for the tree, with at most `groups` groups open at
once. A repeated operator takes everything before it as its left operand. -/
inductive Derives : Nat → Category → List Lexeme → Expr → Prop where
  | number {groups : Nat} (n : Numeral) :
      Derives groups .factor [.numeral n] (.literal n.value)
  | group {groups : Nat} {ls : List Lexeme} {e : Expr} :
      Derives groups .expression ls e →
      Derives (groups + 1) .factor (.symbol .leftParen :: ls ++ [.symbol .rightParen]) e
  | factor {groups : Nat} {ls : List Lexeme} {e : Expr} :
      Derives groups .factor ls e → Derives groups .term ls e
  | product {groups : Nat} {ls ms : List Lexeme} {left right : Expr} {op : Operator} :
      op = .mul ∨ op = .div → Derives groups .term ls left → Derives groups .factor ms right →
      Derives groups .term (ls ++ .symbol (.operator op) :: ms) (.binary op left right)
  | term {groups : Nat} {ls : List Lexeme} {e : Expr} :
      Derives groups .term ls e → Derives groups .expression ls e
  | sum {groups : Nat} {ls ms : List Lexeme} {left right : Expr} {op : Operator} :
      op = .add ∨ op = .sub → Derives groups .expression ls left → Derives groups .term ms right →
      Derives groups .expression (ls ++ .symbol (.operator op) :: ms) (.binary op left right)

end FourFunction.Grammar
