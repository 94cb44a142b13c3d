import FourFunction.Grammar.Verdict
import FourFunction.Proofs.Grammar.Soundness

/-! The rules of the grammar and the one-pass verdict agree. A rule that succeeds takes the pass
from an operand to the operator after it, with the same groups open, and a rule that fails does so
with the error at which the pass stops. -/

namespace FourFunction.Grammar

open Cursor (LiesIn)

/-! ## The pass at a cursor -/

namespace Stage

/-- The verdict on what is left of a source at a cursor, as the rules report it. -/
def judgeFrom (source : List Char) (stage : Stage) (c : Cursor) : Except ParseError Unit :=
  (stage.judge source c.lexemes).mapError .grammar

@[simp] theorem advance_endOfInput (stage : Stage) : stage.advance .endOfInput = none := by
  obtain ⟨mode, opened⟩ := stage
  cases mode <;> cases opened <;> rfl

/-- What the pass sees next at a cursor is what a scanner there reads next. -/
theorem judge_lexemes {source : List Char} {s : Scanner} (hs : s.cursor.LiesIn source)
    (stage : Stage) :
    stage.judge source s.cursor.lexemes =
      match stage.advance s.next.1 with
      | some next => next.judge source s.next.2.cursor.lexemes
      | none => stage.stop source s.next.1 s.cursor.skipBlanks.offset := by
  rcases s.next_cases with ⟨p, mid, hr, -, hn⟩ | ⟨hu, hn⟩
  · have hstart : p.start = s.cursor.skipBlanks.offset := (Cursor.read?_eq_some hr).1
    rw [Cursor.lexemes_of_read?_eq_some hr, judge, hn]
    cases stage.advance p.lexeme.token with
    | some next => rfl
    | none => exact congrArg (stage.stop source p.lexeme.token) hstart
  · rw [hn]
    simp only [advance_endOfInput]
    cases hr : s.cursor.read? with
    | none =>
        rw [Cursor.lexemes_of_read?_eq_none hr, judge,
          hs.skipBlanks_offset_of_read?_eq_none hr]
    | some found =>
        obtain ⟨p, mid⟩ := found
        have ht : p.lexeme.token = .endOfInput :=
          Lexeme.token_eq_endOfInput_iff.mpr (hu p mid hr)
        rw [Cursor.lexemes_of_read?_eq_some hr, judge, ht, advance_endOfInput,
          (Cursor.read?_eq_some hr).1]

theorem advance_of_operatorOf? {level : Level} {token : Token} {op : Operator} {opened : Nat}
    (h : token.operatorOf? level = some op) :
    advance ⟨.operator, opened⟩ token = some ⟨.operand, opened⟩ := by
  obtain ⟨rfl, -⟩ := Token.operatorOf?_eq_some h
  cases opened <;> rfl

theorem advance_operand_eq_none {token : Token} (hn : ∀ value, token ≠ .number value)
    (hp : token ≠ .symbol .leftParen) (opened : Nat) : advance ⟨.operand, opened⟩ token = none := by
  cases token with
  | number value => exact absurd rfl (hn value)
  | symbol s =>
      cases s with
      | operator op => rfl
      | leftParen => exact absurd rfl hp
      | rightParen => rfl
  | endOfInput => rfl

theorem advance_operator_eq_none {token : Token} {opened : Nat}
    (ho : ∀ op, token ≠ .symbol (.operator op))
    (hp : token = .symbol .rightParen → opened = 0) :
    advance ⟨.operator, opened⟩ token = none := by
  cases token with
  | number value => cases opened <;> rfl
  | symbol s =>
      cases s with
      | operator op => exact absurd rfl (ho op)
      | leftParen => cases opened <;> rfl
      | rightParen =>
          obtain rfl := hp rfl
          rfl
  | endOfInput => cases opened <;> rfl

theorem stop_operand {token : Token} (hp : token ≠ .symbol .leftParen) (source : List Char)
    (opened start : Nat) :
    stop source ⟨.operand, opened⟩ token start =
      .error (.expectedNumberOrParen token.describe start) := by
  unfold stop
  split <;> simp_all

theorem judgeFrom_of_advance {source : List Char} {s : Scanner} {stage next : Stage}
    (hs : s.cursor.LiesIn source) (h : stage.advance s.next.1 = some next) :
    stage.judgeFrom source s.cursor = next.judgeFrom source s.next.2.cursor := by
  rw [judgeFrom, judge_lexemes hs, h, judgeFrom]

theorem judgeFrom_of_stop {source : List Char} {s : Scanner} {stage : Stage}
    (hs : s.cursor.LiesIn source) (h : stage.advance s.next.1 = none) :
    stage.judgeFrom source s.cursor =
      (stage.stop source s.next.1 s.cursor.skipBlanks.offset).mapError .grammar := by
  rw [judgeFrom, judge_lexemes hs, h]

end Stage

/-! ## What follows a chain -/

/-- After a tree of the rule, no operator of the level follows. -/
def Rule.Ends (level : Level) (r : Rule) : Prop :=
  ∀ s e, (r.run s).result = .ok e → (r.run s).scanner.next.1.operatorOf? level = none

theorem Extends.operatorOf?_next {level : Level} {operand : Rule} {left : Expr} {s : Scanner}
    {events : Array Event} {o : Outcome} (h : Extends level operand left s events o) :
    ∀ e, o.result = .ok e → o.scanner.next.1.operatorOf? level = none := by
  induction h with
  | next _ _ _ ih => exact ih
  | failed _ _ => simp
  | last hop =>
      intro e _
      exact hop

theorem chain_ends (level : Level) (operand : Rule) : (chain level operand).Ends level := by
  intro s e he
  rcases chain_cases level operand s with ⟨left, -, hextends⟩ | ⟨cause, hc, hrun⟩
  · exact hextends.operatorOf?_next e he
  · simp [hrun, hc] at he

/-- An operator that may not follow the operands may not follow their chain. -/
theorem Extends.operatorOf?_next_of_operand {level outer : Level} {operand : Rule}
    (ho : operand.Ends level) {left : Expr} {s : Scanner} {events : Array Event} {o : Outcome}
    (h : Extends outer operand left s events o) :
    s.next.1.operatorOf? level = none →
      ∀ e, o.result = .ok e → o.scanner.next.1.operatorOf? level = none := by
  induction h with
  | @next left right s events op o _ he _ ih =>
      intro _
      exact ih (ho s.next.2 right he)
  | failed _ _ => simp
  | last _ =>
      intro hs e _
      exact hs

theorem chain_ends_of_operand {level : Level} {operand : Rule} (ho : operand.Ends level)
    (outer : Level) : (chain outer operand).Ends level := by
  intro s e he
  rcases chain_cases outer operand s with ⟨left, hl, hextends⟩ | ⟨cause, hc, hrun⟩
  · exact hextends.operatorOf?_next_of_operand ho (ho s left hl) e he
  · simp [hrun, hc] at he

/-- After an expression no operator follows. -/
theorem expressionOver_next_ne_operator {factor : Rule} {s : Scanner} {e : Expr}
    (h : ((expressionOver factor).run s).result = .ok e) (op : Operator) :
    ((expressionOver factor).run s).scanner.next.1 ≠ .symbol (.operator op) := by
  intro hop
  -- The outer chain excludes sums; products are excluded by its last operand, a chain of them.
  have hsum := chain_ends .sum (chain .product factor) s e h
  have hproduct := chain_ends_of_operand (chain_ends .product factor) .sum s e h
  change ((expressionOver factor).run s).scanner.next.1.operatorOf? _ = none at hsum hproduct
  rw [hop] at hsum hproduct
  cases op <;> simp [Token.operatorOf?, Operator.level] at hsum hproduct

/-! ## Rules in step with the pass -/

/-- Inside of `opened` groups, applying the rule and going on with the pass after it gives what the
pass gives from where the rule starts. -/
def Rule.InStep (opened : Nat) (r : Rule) : Prop :=
  ∀ source s, s.cursor.LiesIn source →
    Stage.judgeFrom source ⟨.operand, opened⟩ s.cursor =
      (r.run s).result.bind fun _ =>
        Stage.judgeFrom source ⟨.operator, opened⟩ (r.run s).scanner.cursor

theorem Extends.inStep {groups opened : Nat} {level : Level} {operand : Rule}
    (ho : operand.Sound groups (.ofOperand level)) (hp : operand.InStep opened)
    {source : List Char} {left : Expr} {s : Scanner} {events : Array Event} {o : Outcome}
    (h : Extends level operand left s events o) :
    s.cursor.LiesIn source →
      Stage.judgeFrom source ⟨.operator, opened⟩ s.cursor =
        o.result.bind fun _ =>
          Stage.judgeFrom source ⟨.operator, opened⟩ o.scanner.cursor := by
  induction h with
  | @next left right s events op o hop he _ ih =>
      intro hs
      have hafter : s.next.2.cursor.LiesIn source := s.liesIn_next hs
      rw [← ih (ho.liesIn hafter), Stage.judgeFrom_of_advance hs (Stage.advance_of_operatorOf? hop),
        hp source _ hafter, he]
      rfl
  | @failed left s events op cause hop he =>
      intro hs
      rw [Stage.judgeFrom_of_advance hs (Stage.advance_of_operatorOf? hop),
        hp source _ (s.liesIn_next hs), he]
  | last hop =>
      intro _
      rfl

theorem chain_inStep {groups opened : Nat} (level : Level) {operand : Rule}
    (ho : operand.Sound groups (.ofOperand level)) (hp : operand.InStep opened) :
    (chain level operand).InStep opened := by
  intro source s hs
  rw [hp source s hs]
  rcases chain_cases level operand s with ⟨left, hl, hextends⟩ | ⟨cause, hc, hrun⟩
  · rw [hl]
    exact hextends.inStep ho hp (ho.liesIn hs)
  · rw [hrun]

theorem expressionOver_inStep {groups opened : Nat} {factor : Rule}
    (hf : factor.Sound groups .factor) (hp : factor.InStep opened) :
    (expressionOver factor).InStep opened :=
  chain_inStep .sum (chain_sound .product hf) (chain_inStep .product hf hp)

/-- A group after its opening parenthesis, in step with the pass from that parenthesis on. -/
def GroupInStep (opened : Nat) (inner : Option Rule) : Prop :=
  ∀ source (s : Scanner), s.cursor.LiesIn source → s.next.1 = .symbol .leftParen →
    Stage.judgeFrom source ⟨.operand, opened⟩ s.cursor =
      (group inner s.next.2).result.bind fun _ =>
        Stage.judgeFrom source ⟨.operator, opened⟩ (group inner s.next.2).scanner.cursor

theorem groupInStep_none : GroupInStep maxNesting none := by
  intro source s hs hp
  have ha : Stage.advance ⟨.operand, maxNesting⟩ s.next.1 = none := by
    rw [hp]
    simp [Stage.advance]
  rw [Stage.judgeFrom_of_stop hs ha, hp]
  simp [group, Stage.stop, Except.mapError, Except.bind]

theorem groupInStep_some {groups opened : Nat} {factor : Rule} (hopened : opened ≠ maxNesting)
    (hf : factor.Sound groups .factor) (hp : factor.InStep (opened + 1)) :
    GroupInStep opened (some (expressionOver factor)) := by
  intro source s hs hparen
  have ha : Stage.advance ⟨.operand, opened⟩ s.next.1 = some ⟨.operand, opened + 1⟩ := by
    rw [hparen]
    simp [Stage.advance, hopened]
  have hafter : s.next.2.cursor.LiesIn source := s.liesIn_next hs
  have hbody : ((expressionOver factor).run s.next.2).scanner.cursor.LiesIn source :=
    (expressionOver_sound hf).liesIn hafter
  rw [Stage.judgeFrom_of_advance hs ha, expressionOver_inStep hf hp source _ hafter]
  rcases group_cases (expressionOver factor) s.next.2 with
    ⟨cause, hc, hrun⟩ | ⟨e, he, hclose, hrun⟩ | ⟨e, he, hopen, hrun⟩
  · rw [hrun, hc]
    rfl
  · have hclosed : Stage.advance ⟨.operator, opened + 1⟩
        ((expressionOver factor).run s.next.2).scanner.next.1 = some ⟨.operator, opened⟩ := by
      rw [hclose]
      rfl
    rw [hrun, he]
    exact Stage.judgeFrom_of_advance hbody hclosed
  · have hstop : Stage.advance ⟨.operator, opened + 1⟩
        ((expressionOver factor).run s.next.2).scanner.next.1 = none :=
      Stage.advance_operator_eq_none (expressionOver_next_ne_operator he)
        (fun ht => absurd ht hopen)
    rw [hrun, he]
    exact Stage.judgeFrom_of_stop hbody hstop

theorem factorOver_inStep {opened : Nat} {inner : Option Rule} (hg : GroupInStep opened inner) :
    (factorOver inner).InStep opened := by
  intro source s hs
  rcases factorOver_cases inner s with ⟨value, hn, hrun⟩ | ⟨hn, hrun⟩ | ⟨hnumber, hparen, hrun⟩
  · have ha : Stage.advance ⟨.operand, opened⟩ s.next.1 = some ⟨.operator, opened⟩ := by
      rw [hn]
      rfl
    rw [hrun]
    exact Stage.judgeFrom_of_advance hs ha
  · rw [hrun]
    exact hg source s hs hn
  · have ha : Stage.advance ⟨.operand, opened⟩ s.next.1 = none :=
      Stage.advance_operand_eq_none hnumber hparen opened
    rw [Stage.judgeFrom_of_stop hs ha, Stage.stop_operand hparen, hrun]
    rfl

/-- As many groups as may still be opened are those that the pass has left. -/
theorem factorWithin_inStep (groups opened : Nat) (h : groups + opened = maxNesting) :
    (factorWithin groups).InStep opened := by
  induction groups generalizing opened with
  | zero =>
      obtain rfl : opened = maxNesting := by omega
      exact factorOver_inStep groupInStep_none
  | succ groups ih =>
      refine factorOver_inStep (groupInStep_some ?_ (factorWithin_sound groups) ?_)
      · omega
      · exact ih (opened + 1) (by omega)

theorem expression_inStep (depth : Nat) (h : depth ≤ maxNesting) :
    (expression depth).InStep depth :=
  expressionOver_inStep (factorWithin_sound _) (factorWithin_inStep _ depth (by omega))

/-! ## Whole sources -/

/-- After the expression the pass accepts at the end of the source only, and reports what is left
anywhere else. -/
theorem judgeFrom_after_expression {source : List Char} {s : Scanner}
    (hs : s.cursor.LiesIn source) (h : ∀ op, s.next.1 ≠ .symbol (.operator op)) :
    Stage.judgeFrom source ⟨.operator, 0⟩ s.cursor =
      if s.exhausted then .ok ()
      else .error (.grammar (.unexpectedTrailingInput s.remainder s.remainderOffset)) := by
  rw [Stage.judgeFrom_of_stop hs (Stage.advance_operator_eq_none h fun _ => rfl), Stage.stop,
    hs.skipBlanks.dropBytes_eq]
  simp only [hs.skipBlanks.offset_eq_byteLength_iff, Scanner.exhausted, List.isEmpty_iff,
    Scanner.remainder, Scanner.remainderOffset]
  split <;> rfl

/-- The rule for whole sources reaches the verdict of the pass, wherever it starts. -/
theorem input_result_map {source : List Char} {s : Scanner} (hs : s.cursor.LiesIn source) :
    (input s).result.map (fun _ => ()) = Stage.initial.judgeFrom source s.cursor := by
  have hlies : ((expression 0).run s).scanner.cursor.LiesIn source :=
    (expression_sound 0).liesIn hs
  rw [Stage.initial, expression_inStep 0 (Nat.zero_le _) source s hs]
  rcases input_cases s with ⟨cause, hc, hrun⟩ | ⟨e, he, hx, hrun⟩ | ⟨e, he, hx, hrun⟩
  · rw [hrun, hc]
    rfl
  · have hend := judgeFrom_after_expression hlies (expressionOver_next_ne_operator he)
    rw [if_pos hx] at hend
    rw [hrun, he]
    exact hend.symm
  · have hend := judgeFrom_after_expression hlies (expressionOver_next_ne_operator he)
    rw [if_neg hx] at hend
    rw [hrun, he]
    exact hend.symm

theorem parse_map (source : String) :
    (parse source).map (fun _ => ()) = (verdictOf source).mapError .grammar :=
  input_result_map (s := Scanner.ofSource source) (Cursor.liesIn_first source.toList)

theorem verdictOf_of_parse_eq_error {source : String} {error : ParseError}
    (h : parse source = .error error) :
    ∃ cause, error = .grammar cause ∧ verdictOf source = .error cause := by
  have hrun := parse_map source
  cases hv : verdictOf source with
  | ok accepted => simp [h, hv, Except.map, Except.mapError] at hrun
  | error cause => exact ⟨cause, by simpa [h, hv, Except.map, Except.mapError] using hrun, rfl⟩

theorem parse_eq_error_iff {source : String} {cause : SyntaxError} :
    parse source = .error (.grammar cause) ↔ verdictOf source = .error cause := by
  constructor
  · intro h
    obtain ⟨cause', hcause, hverdict⟩ := verdictOf_of_parse_eq_error h
    rw [hverdict, ParseError.grammar.inj hcause]
  · intro h
    have hrun := parse_map source
    cases hp : parse source with
    | ok e => simp [hp, h, Except.map, Except.mapError] at hrun
    | error error => simpa [hp, h, Except.map, Except.mapError] using hrun

example : verdictOf "(1 2)" = .error (.missingClosingParen 3) := by decide +kernel

/-- Parsing reaches the verdict of one pass over the lexemes: it succeeds if the pass accepts, and
fails with the error at which the pass stops if not. The scanner is never misused. -/
theorem parse_verdict (source : String) :
    ((∃ e, parse source = .ok e) ↔ verdictOf source = .ok ()) ∧
      (∀ cause, parse source = .error (.grammar cause) ↔ verdictOf source = .error cause) ∧
      ∀ cause, parse source ≠ .error (.scan cause) := by
  have h := parse_map source
  cases hp : parse source with
  | ok e =>
      cases hv : verdictOf source with
      | ok accepted => simp
      | error cause => simp [hp, hv, Except.map, Except.mapError] at h
  | error e =>
      cases hv : verdictOf source with
      | ok accepted => simp [hp, hv, Except.map, Except.mapError] at h
      | error cause =>
          rw [hp, hv] at h
          obtain rfl := Except.error.inj h
          simp

end FourFunction.Grammar
