import FourFunction.Grammar.Chain

/-! The rules of the grammar. A factor may hold a group, and a group an expression, so the rules
are built from the inside out, one round for each group that may still be opened. -/

namespace FourFunction.Grammar

def maxNesting : Nat := 256

/-- The expression rule over a factor rule: sums of products of factors. -/
def expressionOver (factor : Rule) : Rule :=
  chain .sum (chain .product factor)

/-- The rest of a factor after its opening parenthesis: the expression within, then the closing
one. Without a rule for the expression the group is one too many. -/
def group (inner : Option Rule) (s : Scanner) : Outcome :=
  match inner with
  | none => ⟨.error (.grammar (.nestingTooDeep maxNesting s.tokenStart)), s, #[]⟩
  | some expression =>
    let body := expression.run s
    match body.result with
    | .error cause => ⟨.error cause, body.scanner, body.events⟩
    | .ok e =>
      let events := body.events ++ body.scanner.nextEvents
      match body.scanner.next with
      | (.symbol .rightParen, after) => ⟨.ok e, after, events.push (.group e)⟩
      | (_, after) => ⟨.error (.grammar (.missingClosingParen after.tokenStart)), after, events⟩

theorem unread_group_le (inner : Option Rule) (s : Scanner) :
    (group inner s).scanner.unread ≤ s.unread := by
  unfold group
  split
  · exact Nat.le_refl _
  next expression =>
    have hb := expression.unread_le s
    have hn := (expression.run s).scanner.unread_next_le
    simp only
    split
    · exact hb
    · split <;> simp_all only <;> exact Nat.le_trans hn hb

/-- A factor: a number, or a group around an expression. -/
def factorOver (inner : Option Rule) : Rule where
  run s :=
    match s.next with
    | (.number value, after) =>
      ⟨.ok (.literal value), after, s.nextEvents.push (.number value)⟩
    | (.symbol .leftParen, after) => (group inner after).after s.nextEvents
    | (token, after) =>
      ⟨.error (.grammar (.expectedNumberOrParen token.describe after.tokenStart)), after,
        s.nextEvents⟩
  unread_le s := by
    have hn := s.unread_next_le
    split <;> simp_all only
    exact Nat.le_trans (unread_group_le inner _) hn

/-- Factors in which at most `groups` groups are open at once. -/
def factorWithin : Nat → Rule
  | 0 => factorOver none
  | groups + 1 => factorOver (some (expressionOver (factorWithin groups)))

/-- The factor rule inside `depth` groups. -/
def factor (depth : Nat) : Rule :=
  factorWithin (maxNesting - depth)

def term (depth : Nat) : Rule :=
  chain .product (factor depth)

def expression (depth : Nat) : Rule :=
  chain .sum (term depth)

/-- A whole source: an expression and then nothing but blanks. -/
def input (s : Scanner) : Outcome :=
  let o := (expression 0).run s
  match o.result with
  | .error _ => o
  | .ok e =>
    if o.scanner.exhausted then ⟨.ok e, o.scanner, o.events.push (.parsed e)⟩
    else
      let cause := .unexpectedTrailingInput o.scanner.remainder o.scanner.remainderOffset
      ⟨.error (.grammar cause), o.scanner, o.events⟩

end FourFunction.Grammar
