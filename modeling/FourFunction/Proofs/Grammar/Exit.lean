import FourFunction.Grammar.Frame
import FourFunction.Proofs.Grammar.Verdict

/-! Where the rules leave the scanner. A chain has read the token after its last lexeme and given it
back, a factor has read its last lexeme last, and a rule that fails has read the token at which the
error lies last. So every rule finds the one place for a token given back as it needs it. -/

namespace FourFunction.Grammar

open Cursor (Reads)

/-! ## Failures -/

/-- An error about the token that was read last. It lies where that token starts, and the token can
be given back, which leads to the same place. -/
def AtLastToken (cause : ParseError) (s : Scanner) : Prop :=
  ∃ e : SyntaxError, cause = .grammar e ∧
    (∀ input offset, e ≠ .unexpectedTrailingInput input offset) ∧ s.tokenStart = e.offset ∧
    ∃ back, s.pushBack = .ok back ∧ back.remainderOffset = e.offset

theorem atLastToken_next {s : Scanner} {e : SyntaxError}
    (he : e.offset = s.cursor.skipBlanks.offset)
    (ht : ∀ input offset, e ≠ .unexpectedTrailingInput input offset) :
    AtLastToken (.grammar e) s.next.2 :=
  ⟨e, rfl, ht, by simp [he], ⟨s.cursor, .spent⟩, s.pushBack_next, he.symm⟩

/-- The errors of a rule are all about the token that it has read last. -/
def Rule.FailsAtToken (r : Rule) : Prop :=
  ∀ s cause, (r.run s).result = .error cause → AtLastToken cause (r.run s).scanner

theorem Extends.atLastToken {level : Level} {operand : Rule} (ho : operand.FailsAtToken)
    {left : Expr} {s : Scanner} {events : Array Event} {o : Outcome}
    (h : Extends level operand left s events o) :
    ∀ cause, o.result = .error cause → AtLastToken cause o.scanner := by
  induction h with
  | next _ _ _ ih => exact ih
  | @failed left s events op cause' _ hc =>
      intro cause he
      obtain rfl := Except.error.inj he
      exact ho s.next.2 _ hc
  | last _ =>
      intro cause he
      simp at he

theorem chain_failsAtToken (level : Level) {operand : Rule} (ho : operand.FailsAtToken) :
    (chain level operand).FailsAtToken := by
  intro s cause he
  rcases chain_cases level operand s with ⟨left, -, hextends⟩ | ⟨cause', hc, hrun⟩
  · exact hextends.atLastToken ho cause he
  · rw [hrun] at he ⊢
    exact ho s cause he

theorem factorOver_failsAtToken {inner : Option Rule}
    (hi : ∀ expression ∈ inner, expression.FailsAtToken) :
    (factorOver inner).FailsAtToken := by
  intro s cause he
  rcases factorOver_cases inner s with ⟨value, -, hrun⟩ | ⟨-, hrun⟩ | ⟨-, -, hrun⟩
  · simp [hrun] at he
  · rw [hrun] at he ⊢
    change (group inner s.next.2).result = .error cause at he
    change AtLastToken cause (group inner s.next.2).scanner
    cases inner with
    | none =>
        obtain rfl := Except.error.inj he
        exact atLastToken_next (by simp [SyntaxError.offset]) (by simp)
    | some expression =>
        rcases group_cases expression s.next.2 with
          ⟨cause', hc, hgroup⟩ | ⟨e, -, -, hgroup⟩ | ⟨e, -, -, hgroup⟩
        · rw [hgroup] at he ⊢
          obtain rfl := Except.error.inj he
          exact hi expression rfl _ _ hc
        · simp [hgroup] at he
        · rw [hgroup] at he ⊢
          obtain rfl := Except.error.inj he
          exact atLastToken_next rfl (by simp)
  · rw [hrun] at he ⊢
    obtain rfl := Except.error.inj he
    exact atLastToken_next rfl (by simp)

theorem factorWithin_failsAtToken (groups : Nat) : (factorWithin groups).FailsAtToken := by
  induction groups with
  | zero => exact factorOver_failsAtToken (by simp)
  | succ groups ih =>
      refine factorOver_failsAtToken ?_
      intro expression hexpression
      obtain rfl := Option.some.inj hexpression
      exact chain_failsAtToken .sum (chain_failsAtToken .product ih)

/-! ## Chains -/

/-- The scanner stands at the end of the last lexeme of a tree, and a token was given back there. -/
structure EndsAtCursor (groups : Nat) (category : Category) (e : Expr) (s after : Scanner) :
    Prop where
  exists_reads : ∃ ps p, Reads s.cursor (ps ++ [p]) after.cursor ∧
    Derives groups category ((ps ++ [p]).map Placed.lexeme) e ∧ after.cursor.offset = p.stop
  pushBack_eq : after.pushBack = .error (.doublePushBack after.cursor.offset)

theorem Derives.ne_nil {groups : Nat} {category : Category} {ls : List Lexeme} {e : Expr}
    (h : Derives groups category ls e) : ls ≠ [] := by
  induction h with
  | number => simp
  | group => simp
  | factor _ ih => exact ih
  | product => simp
  | term _ ih => exact ih
  | sum => simp

theorem Extends.history_eq {level : Level} {operand : Rule} {left : Expr} {s : Scanner}
    {events : Array Event} {o : Outcome} (h : Extends level operand left s events o) :
    ∀ e, o.result = .ok e → o.scanner.history = .spent := by
  induction h with
  | next _ _ _ ih => exact ih
  | failed _ _ => simp
  | last _ => simp

theorem chain_endsAtCursor {groups : Nat} (level : Level) {operand : Rule}
    (ho : operand.Sound groups (.ofOperand level)) {s : Scanner} {e : Expr}
    (he : ((chain level operand).run s).result = .ok e) :
    EndsAtCursor groups (.ofChain level) e s ((chain level operand).run s).scanner := by
  obtain ⟨qs, hqs, hderives⟩ := chain_sound level ho s
  have hne : qs ≠ [] := by simpa using (hderives e he).ne_nil
  obtain ⟨ps, p, rfl⟩ : ∃ ps p, qs = ps ++ [p] := ⟨_, _, (List.dropLast_append_getLast hne).symm⟩
  refine ⟨⟨ps, p, hqs, hderives e he, by simp [hqs.offset_eq]⟩, ?_⟩
  rcases chain_cases level operand s with ⟨left, -, hextends⟩ | ⟨cause, hc, hrun⟩
  · rw [Scanner.pushBack, hextends.history_eq e he]
  · simp [hrun, hc] at he

/-! ## Factors -/

/-- The scanner has read the last lexeme of a factor last. Giving it back leads to the place before
that lexeme, and reading it again leads back. -/
def EndsAtLexeme (groups : Nat) (e : Expr) (s after : Scanner) : Prop :=
  ∃ ps p back, Reads s.cursor ps back.cursor ∧ Reads back.cursor [p] after.cursor ∧
    Derives groups .factor ((ps ++ [p]).map Placed.lexeme) e ∧
    ((∃ n, p.lexeme = .numeral n) ∨ p.lexeme = .symbol .rightParen) ∧
    after.pushBack = .ok back ∧ back.next = (p.lexeme.token, after)

/-- A lexeme that was read last can be given back and read again. -/
theorem exists_pushBack_next {s : Scanner} {p : Placed}
    (hp : Reads s.cursor [p] s.next.2.cursor) :
    ∃ back, back.cursor = s.cursor ∧ s.next.2.pushBack = .ok back ∧
      back.next = (p.lexeme.token, s.next.2) := by
  have htoken : s.next.1 = p.lexeme.token := by
    rw [Scanner.next_of_reads hp]
  refine ⟨⟨s.cursor, .spent⟩, rfl, s.pushBack_next, ?_⟩
  rw [← htoken]
  exact Scanner.next_congr rfl

theorem factorOver_endsAtLexeme {groups : Nat} {inner : Option Rule}
    (hi : ∀ expression ∈ inner, ∃ g, g + 1 = groups ∧ expression.Sound g .expression)
    {s : Scanner} {e : Expr} (he : ((factorOver inner).run s).result = .ok e) :
    EndsAtLexeme groups e s ((factorOver inner).run s).scanner := by
  rcases factorOver_cases inner s with ⟨value, hn, hrun⟩ | ⟨hn, hrun⟩ | ⟨-, -, hrun⟩
  · rw [hrun] at he ⊢
    obtain rfl := Except.ok.inj he
    obtain ⟨n, start, hread, rfl⟩ := Scanner.reads_next_number hn
    obtain ⟨back, hcursor, hback, hnext⟩ := exists_pushBack_next hread
    exact ⟨[], _, back, hcursor ▸ .done _, hcursor ▸ hread, .number n, .inl ⟨n, rfl⟩, hback, hnext⟩
  · rw [hrun] at he ⊢
    change (group inner s.next.2).result = .ok e at he
    change EndsAtLexeme groups e s (group inner s.next.2).scanner
    cases inner with
    | none => simp [group] at he
    | some expression =>
        obtain ⟨g, rfl, hsound⟩ := hi expression rfl
        obtain ⟨start, hopen⟩ := Scanner.reads_next_symbol hn
        obtain ⟨ps, hps, hderives⟩ := hsound s.next.2
        rcases group_cases expression s.next.2 with
          ⟨cause, -, hgroup⟩ | ⟨body, hb, hclose, hgroup⟩ | ⟨body, -, -, hgroup⟩
        · simp [hgroup] at he
        · rw [hgroup] at he ⊢
          obtain rfl := Except.ok.inj he
          obtain ⟨stop, hread⟩ := Scanner.reads_next_symbol hclose
          obtain ⟨back, hcursor, hback, hnext⟩ := exists_pushBack_next hread
          refine ⟨_, _, back, hcursor ▸ hopen.append hps, hcursor ▸ hread, ?_, .inr rfl, hback,
            hnext⟩
          simpa using Derives.group (hderives body hb)
        · simp [hgroup] at he
  · simp [hrun] at he

theorem factorWithin_endsAtLexeme (groups : Nat) {s : Scanner} {e : Expr}
    (he : ((factorWithin groups).run s).result = .ok e) :
    EndsAtLexeme groups e s ((factorWithin groups).run s).scanner := by
  cases groups with
  | zero => exact factorOver_endsAtLexeme (by simp) he
  | succ groups =>
      refine factorOver_endsAtLexeme ?_ he
      intro expression hexpression
      obtain rfl := Option.some.inj hexpression
      exact ⟨groups, rfl, expressionOver_sound (factorWithin_sound groups)⟩

/-! ## All rules -/

theorem rule_failsAtToken (depth : Nat) (category : Category) :
    (rule depth category).FailsAtToken := by
  have hfactor : (factor depth).FailsAtToken := factorWithin_failsAtToken _
  cases category with
  | expression => exact chain_failsAtToken .sum (chain_failsAtToken .product hfactor)
  | term => exact chain_failsAtToken .product hfactor
  | factor => exact hfactor

theorem term_next_ne_product {factor : Rule} {s : Scanner} {e : Expr}
    (h : ((chain .product factor).run s).result = .ok e) {op : Operator}
    (hop : op = .mul ∨ op = .div) :
    ((chain .product factor).run s).scanner.next.1 ≠ .symbol (.operator op) := by
  intro hnext
  have hends := chain_ends .product factor s e h
  have hlevel := Operator.level_eq_iff.mpr (Level.mem_operators_product.mpr hop)
  rw [hnext] at hends
  simp [Token.operatorOf?, hlevel] at hends

/-- After a failure the scanner has read the faulty token last, or text is left over after a whole
expression and it is what the scanner has not read. -/
theorem input_result_eq_error {s : Scanner} {cause : ParseError}
    (h : (input s).result = .error cause) :
    AtLastToken cause (input s).scanner ∨
      (cause = .grammar (.unexpectedTrailingInput (input s).scanner.remainder
          (input s).scanner.remainderOffset) ∧
        (input s).scanner.pushBack = .error (.doublePushBack (input s).scanner.cursor.offset)) := by
  rcases input_cases s with ⟨cause', -, hrun⟩ | ⟨e, -, -, hrun⟩ | ⟨e, he, -, hrun⟩
  · rw [hrun] at h ⊢
    exact .inl (rule_failsAtToken 0 .expression s cause h)
  · simp [hrun] at h
  · rw [hrun] at h ⊢
    obtain rfl := Except.error.inj h
    have hends := chain_endsAtCursor .sum (chain_sound .product (factorWithin_sound _)) he
    exact .inr ⟨rfl, hends.pushBack_eq⟩

/-- What the rules inside of `depth` groups, and the rule for whole sources, leave of a scanner. -/
structure LeavesScanner (depth : Nat) (s : Scanner) : Prop where
  expression_ok : ∀ e, ((expression depth).run s).result = .ok e →
    EndsAtCursor (maxNesting - depth) .expression e s ((expression depth).run s).scanner ∧
      ∀ op, ((expression depth).run s).scanner.next.1 ≠ .symbol (.operator op)
  term_ok : ∀ e, ((term depth).run s).result = .ok e →
    EndsAtCursor (maxNesting - depth) .term e s ((term depth).run s).scanner ∧
      ((term depth).run s).scanner.next.1 ≠ .symbol (.operator .mul) ∧
      ((term depth).run s).scanner.next.1 ≠ .symbol (.operator .div)
  factor_ok : ∀ e, ((factor depth).run s).result = .ok e →
    EndsAtLexeme (maxNesting - depth) e s ((factor depth).run s).scanner
  input_ok : ∀ e, (input s).result = .ok e → (input s).scanner.exhausted
  not_scan : ∀ cause, (∀ category, ((rule depth category).run s).result ≠ .error (.scan cause)) ∧
    (input s).result ≠ .error (.scan cause)
  rule_error : ∀ category cause, ((rule depth category).run s).result = .error cause →
    AtLastToken cause ((rule depth category).run s).scanner
  input_error : ∀ cause, (input s).result = .error cause →
    (∀ text offset, cause ≠ .grammar (.unexpectedTrailingInput text offset)) →
      AtLastToken cause (input s).scanner
  input_trailing : ∀ text offset,
    (input s).result = .error (.grammar (.unexpectedTrailingInput text offset)) →
      (input s).scanner.remainder = text ∧ (input s).scanner.remainderOffset = offset ∧
        (input s).scanner.pushBack = .error (.doublePushBack (input s).scanner.cursor.offset)

/-- Wherever a scanner stands and whatever was called on it before, every rule leaves it as the rule
around it expects it, and never gives back a token that it has not read. -/
theorem leavesScanner (depth : Nat) (s : Scanner) : LeavesScanner depth s where
  expression_ok := by
    intro e he
    exact ⟨chain_endsAtCursor .sum (chain_sound .product (factorWithin_sound _)) he,
      expressionOver_next_ne_operator he⟩
  term_ok := by
    intro e he
    exact ⟨chain_endsAtCursor .product (factorWithin_sound _) he,
      term_next_ne_product he (.inl rfl), term_next_ne_product he (.inr rfl)⟩
  factor_ok := by
    intro e he
    exact factorWithin_endsAtLexeme _ he
  input_ok := by
    intro e he
    rcases input_cases s with ⟨cause, hc, hrun⟩ | ⟨e', -, hx, hrun⟩ | ⟨e', -, -, hrun⟩
    · simp [hrun, hc] at he
    · rw [hrun]
      exact hx
    · simp [hrun] at he
  not_scan := by
    intro cause
    refine ⟨?_, ?_⟩
    · intro category he
      obtain ⟨e, hc, -⟩ := rule_failsAtToken depth category s _ he
      simp at hc
    · intro he
      rcases input_result_eq_error he with ⟨e, hc, -⟩ | ⟨hc, -⟩
      · simp at hc
      · simp at hc
  rule_error := by
    intro category cause he
    exact rule_failsAtToken depth category s cause he
  input_error := by
    intro cause he ht
    rcases input_result_eq_error he with hlast | ⟨hc, -⟩
    · exact hlast
    · exact absurd hc (ht _ _)
  input_trailing := by
    intro text offset he
    rcases input_result_eq_error he with ⟨e, hc, hne, -⟩ | ⟨hc, hback⟩
    · obtain rfl := ParseError.grammar.inj hc
      exact absurd rfl (hne text offset)
    · simp only [ParseError.grammar.injEq, SyntaxError.unexpectedTrailingInput.injEq] at hc
      exact ⟨hc.1.symm, hc.2.symm, hback⟩

end FourFunction.Grammar
