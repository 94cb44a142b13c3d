import FourFunction.Grammar.Frame
import FourFunction.Proofs.Scanner.Next

/-! What the rules of the grammar can come to, with one case for each way through a rule. -/

namespace FourFunction.Grammar

variable {level : Level} {operand : Rule}

/-! ## Chains -/

/-- How a chain goes on from a tree. An operator is followed by an operand, which may fail, and the
token after the last operand is given back. -/
inductive Extends (level : Level) (operand : Rule) :
    Expr → Scanner → Array Event → Outcome → Prop where
  | next {left right : Expr} {s : Scanner} {events : Array Event} {op : Operator} {o : Outcome} :
      s.next.1.operatorOf? level = some op → (operand.run s.next.2).result = .ok right →
      Extends level operand (.binary op left right) (operand.run s.next.2).scanner
        (events ++ s.nextEvents ++ (operand.run s.next.2).events) o →
      Extends level operand left s events o
  | failed {left : Expr} {s : Scanner} {events : Array Event} {op : Operator}
      {cause : ParseError} :
      s.next.1.operatorOf? level = some op → (operand.run s.next.2).result = .error cause →
      Extends level operand left s events ⟨.error cause, (operand.run s.next.2).scanner,
        events ++ s.nextEvents ++ (operand.run s.next.2).events⟩
  | last {left : Expr} {s : Scanner} {events : Array Event} :
      s.next.1.operatorOf? level = none →
      Extends level operand left s events ⟨.ok left, ⟨s.cursor, .spent⟩,
        (events ++ s.nextEvents ++ s.next.2.pushBackEvents).push (.chain level left)⟩

theorem extends_extend (level : Level) (operand : Rule) (left : Expr) (s : Scanner)
    (events : Array Event) :
    Extends level operand left s events (extend level operand left s events) := by
  fun_induction extend level operand left s events with
  | case1 left s events op hop right events' e he ih => exact .next hop he ih
  | case2 left s events op hop right events' cause he => exact .failed hop he
  | case3 left s events hop events' back hb =>
      rw [Scanner.pushBack_next] at hb
      obtain rfl := Except.ok.inj hb
      exact .last hop
  | case4 left s events hop events' cause hb => simp at hb

theorem chain_cases (level : Level) (operand : Rule) (s : Scanner) :
    (∃ left, (operand.run s).result = .ok left ∧
      Extends level operand left (operand.run s).scanner (operand.run s).events
        ((chain level operand).run s)) ∨
    (∃ cause, (operand.run s).result = .error cause ∧
      (chain level operand).run s = operand.run s) := by
  simp only [chain]
  cases h : (operand.run s).result with
  | ok left => exact .inl ⟨left, rfl, extends_extend ..⟩
  | error cause => exact .inr ⟨cause, rfl, rfl⟩

/-! ## Groups and factors -/

theorem group_cases (expression : Rule) (s : Scanner) :
    (∃ cause, (expression.run s).result = .error cause ∧
      group (some expression) s =
        ⟨.error cause, (expression.run s).scanner, (expression.run s).events⟩) ∨
    (∃ e, (expression.run s).result = .ok e ∧
      (expression.run s).scanner.next.1 = .symbol .rightParen ∧
      group (some expression) s = ⟨.ok e, (expression.run s).scanner.next.2,
        ((expression.run s).events ++ (expression.run s).scanner.nextEvents).push (.group e)⟩) ∨
    (∃ e, (expression.run s).result = .ok e ∧
      (expression.run s).scanner.next.1 ≠ .symbol .rightParen ∧
      group (some expression) s =
        ⟨.error (.grammar (.missingClosingParen
            (expression.run s).scanner.cursor.skipBlanks.offset)),
          (expression.run s).scanner.next.2,
          (expression.run s).events ++ (expression.run s).scanner.nextEvents⟩) := by
  simp only [group]
  cases he : (expression.run s).result with
  | error cause => exact .inl ⟨cause, rfl, rfl⟩
  | ok e =>
      rw [← Scanner.tokenStart_next (expression.run s).scanner]
      dsimp only
      split
      next after hn => exact .inr (.inl ⟨e, rfl, by rw [hn], by rw [hn]⟩)
      next token after hclose hn =>
        exact .inr (.inr ⟨e, rfl, by rw [hn]; exact hclose, by rw [hn]⟩)

theorem factorOver_cases (inner : Option Rule) (s : Scanner) :
    (∃ value, s.next.1 = .number value ∧
      (factorOver inner).run s =
        ⟨.ok (.literal value), s.next.2, s.nextEvents.push (.number value)⟩) ∨
    (s.next.1 = .symbol .leftParen ∧
      (factorOver inner).run s = (group inner s.next.2).after s.nextEvents) ∨
    ((∀ value, s.next.1 ≠ .number value) ∧ s.next.1 ≠ .symbol .leftParen ∧
      (factorOver inner).run s =
        ⟨.error (.grammar (.expectedNumberOrParen s.next.1.describe
            s.cursor.skipBlanks.offset)), s.next.2, s.nextEvents⟩) := by
  rw [← Scanner.tokenStart_next s]
  simp only [factorOver]
  split
  next value after hn => exact .inl ⟨value, by rw [hn], by rw [hn]⟩
  next after hn => exact .inr (.inl ⟨by rw [hn], by rw [hn]⟩)
  next token after hnumber hparen hn =>
    rw [hn]
    exact .inr (.inr ⟨hnumber, hparen, rfl⟩)

/-! ## All rules -/

/-- What chains have if their operands do, and factors if what they hold does, every rule has. -/
theorem rule_induction {P : Rule → Prop}
    (hchain : ∀ level operand, P operand → P (chain level operand))
    (hfactor : ∀ inner, (∀ expression ∈ inner, P expression) → P (factorOver inner))
    (depth : Nat) (category : Category) : P (rule depth category) := by
  have hwithin : ∀ groups, P (factorWithin groups) := by
    intro groups
    induction groups with
    | zero => exact hfactor none (by simp)
    | succ groups ih =>
        refine hfactor _ ?_
        intro expression hexpression
        obtain rfl := Option.some.inj hexpression
        exact hchain .sum _ (hchain .product _ ih)
  cases category with
  | expression => exact hchain .sum _ (hchain .product _ (hwithin _))
  | term => exact hchain .product _ (hwithin _)
  | factor => exact hwithin _

/-! ## Whole sources -/

theorem input_cases (s : Scanner) :
    (∃ cause, ((expression 0).run s).result = .error cause ∧ input s = (expression 0).run s) ∨
    (∃ e, ((expression 0).run s).result = .ok e ∧ ((expression 0).run s).scanner.exhausted ∧
      input s = ⟨.ok e, ((expression 0).run s).scanner,
        ((expression 0).run s).events.push (.parsed e)⟩) ∨
    (∃ e, ((expression 0).run s).result = .ok e ∧ ¬ ((expression 0).run s).scanner.exhausted ∧
      input s = ⟨.error (.grammar (.unexpectedTrailingInput
          ((expression 0).run s).scanner.remainder
          ((expression 0).run s).scanner.remainderOffset)),
        ((expression 0).run s).scanner, ((expression 0).run s).events⟩) := by
  simp only [input]
  cases he : ((expression 0).run s).result with
  | error cause => exact .inl ⟨cause, rfl, rfl⟩
  | ok e =>
      by_cases hx : ((expression 0).run s).scanner.exhausted
      · exact .inr (.inl ⟨e, rfl, hx, if_pos hx⟩)
      · exact .inr (.inr ⟨e, rfl, hx, if_neg hx⟩)

end FourFunction.Grammar
