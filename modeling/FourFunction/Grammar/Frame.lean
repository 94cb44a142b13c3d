import FourFunction.Grammar.Derivation
import FourFunction.Grammar.Nesting

/-! Calls of the rules by one another, with a limit on the groups that are open at once or without
one. A call that has not ended yet is a frame on the stack of whoever carries the rules out. -/

namespace FourFunction.Grammar

/-- The rule of a category, given the rule for its factors. -/
def ruleOver (factor : Rule) : Category → Rule
  | .expression => expressionOver factor
  | .term => chain .product factor
  | .factor => factor

/-- The rule of a category inside of `depth` groups. -/
def rule (depth : Nat) (category : Category) : Rule :=
  ruleOver (factor depth) category

/-- The factor rule without a limit on the groups that are open at once. Every group takes at least
one character, so no more can be opened than there are characters. -/
def unlimitedFactor : Rule where
  run s := (factorWithin s.unread).run s
  unread_le s := (factorWithin s.unread).unread_le s

/-- The factor rule inside of `depth` groups, under a limit if there is one. -/
def factorUnder : Option Nat → Nat → Rule
  | none, _ => unlimitedFactor
  | some limit, depth => factorWithin (limit - depth)

/-- The scanners to which a chain applies the rule for its operands: that with which it starts, and
after every operand and operator the one that comes next. -/
inductive Operands (level : Level) (operand : Rule) : Scanner → Scanner → Prop where
  | first (s : Scanner) : Operands level operand s s
  | next {s t : Scanner} {e : Expr} {op : Operator} :
      (operand.run s).result = .ok e →
      (operand.run s).scanner.next.1.operatorOf? level = some op →
      Operands level operand (operand.run s).scanner.next.2 t →
      Operands level operand s t

/-- A rule applied to a scanner inside of a number of groups. -/
structure Frame where
  category : Category
  depth : Nat
  scanner : Scanner

/-- The calls made by a frame. A group is opened only below the limit, and the depth handed on is
then one more. -/
inductive Frame.Calls (limit : Option Nat) : Frame → Frame → Prop where
  | term {depth : Nat} {s t : Scanner} :
      Operands .sum (ruleOver (factorUnder limit depth) .term) s t →
      Calls limit ⟨.expression, depth, s⟩ ⟨.term, depth, t⟩
  | factor {depth : Nat} {s t : Scanner} :
      Operands .product (ruleOver (factorUnder limit depth) .factor) s t →
      Calls limit ⟨.term, depth, s⟩ ⟨.factor, depth, t⟩
  | group {depth : Nat} {s : Scanner} :
      s.next.1 = .symbol .leftParen → (∀ l ∈ limit, depth < l) →
      Calls limit ⟨.factor, depth, s⟩ ⟨.expression, depth + 1, s.next.2⟩

end FourFunction.Grammar
