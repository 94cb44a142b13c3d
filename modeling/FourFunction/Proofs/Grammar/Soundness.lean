import FourFunction.Calculation
import FourFunction.Grammar.Derivation
import FourFunction.Proofs.Grammar.Rules

/-! Every tree that a rule gives is derived from exactly the lexemes that the rule has passed
over. Rules that fail have passed over matched lexemes too. -/

namespace FourFunction.Grammar

open Cursor (Reads)

/-! ## Levels as categories -/

/-- The category of the chains of a level. -/
def Category.ofChain : Level → Category
  | .sum => .expression
  | .product => .term

/-- The category of the operands in the chains of a level. -/
def Category.ofOperand : Level → Category
  | .sum => .term
  | .product => .factor

theorem Derives.single {groups : Nat} {level : Level} {ls : List Lexeme} {e : Expr}
    (h : Derives groups (.ofOperand level) ls e) : Derives groups (.ofChain level) ls e := by
  cases level with
  | sum => exact .term h
  | product => exact .factor h

theorem Derives.chain {groups : Nat} {level : Level} {ls ms : List Lexeme} {left right : Expr}
    {op : Operator} (hop : op ∈ level.operators) (hl : Derives groups (.ofChain level) ls left)
    (hr : Derives groups (.ofOperand level) ms right) :
    Derives groups (.ofChain level) (ls ++ .symbol (.operator op) :: ms)
      (.binary op left right) := by
  cases level with
  | sum => exact .sum (Level.mem_operators_sum.mp hop) hl hr
  | product => exact .product (Level.mem_operators_product.mp hop) hl hr

/-! ## Rules -/

/-- A rule passes over matched lexemes only, and derives its trees from them. -/
def Rule.Sound (groups : Nat) (category : Category) (r : Rule) : Prop :=
  ∀ s, ∃ ps, Reads s.cursor ps (r.run s).scanner.cursor ∧
    ∀ e, (r.run s).result = .ok e → Derives groups category (ps.map Placed.lexeme) e

theorem Rule.Sound.liesIn {groups : Nat} {category : Category} {r : Rule}
    (h : r.Sound groups category) {source : List Char} {s : Scanner}
    (hs : s.cursor.LiesIn source) : (r.run s).scanner.cursor.LiesIn source := by
  obtain ⟨ps, hps, -⟩ := h s
  exact hps.liesIn hs

theorem Extends.exists_reads {groups : Nat} {level : Level} {operand : Rule}
    (ho : operand.Sound groups (.ofOperand level)) {left : Expr} {s : Scanner}
    {events : Array Event} {o : Outcome} (h : Extends level operand left s events o)
    {c : Cursor} {ps : List Placed} (hps : Reads c ps s.cursor)
    (hd : Derives groups (.ofChain level) (ps.map Placed.lexeme) left) :
    ∃ qs, Reads c qs o.scanner.cursor ∧
      ∀ e, o.result = .ok e → Derives groups (.ofChain level) (qs.map Placed.lexeme) e := by
  induction h generalizing ps with
  | @next left right s events op o hop he _ ih =>
      have ⟨hsymbol, hlevel⟩ := Token.operatorOf?_eq_some hop
      have ⟨start, hread⟩ := Scanner.reads_next_symbol hsymbol
      have ⟨qs, hqs, hderives⟩ := ho s.next.2
      refine ih ((hps.append hread).append hqs) ?_
      simpa using Derives.chain hlevel hd (hderives right he)
  | @failed left s events op cause hop he =>
      have ⟨hsymbol, _⟩ := Token.operatorOf?_eq_some hop
      have ⟨start, hread⟩ := Scanner.reads_next_symbol hsymbol
      have ⟨qs, hqs, _⟩ := ho s.next.2
      exact ⟨_, (hps.append hread).append hqs, by simp⟩
  | last hop =>
      refine ⟨ps, hps, ?_⟩
      intro e he
      obtain rfl := Except.ok.inj he
      exact hd

theorem chain_sound {groups : Nat} (level : Level) {operand : Rule}
    (ho : operand.Sound groups (.ofOperand level)) :
    (chain level operand).Sound groups (.ofChain level) := by
  intro s
  have ⟨ps, hps, hderives⟩ := ho s
  rcases chain_cases level operand s with ⟨left, hl, hextends⟩ | ⟨cause, hc, hrun⟩
  · exact hextends.exists_reads ho hps (hderives left hl).single
  · rw [hrun]
    exact ⟨ps, hps, by simp [hc]⟩

theorem expressionOver_sound {groups : Nat} {factor : Rule} (hf : factor.Sound groups .factor) :
    (expressionOver factor).Sound groups .expression :=
  chain_sound .sum (chain_sound .product hf)

/-- After its opening parenthesis a group has the tree of the expression within. -/
def GroupSound (groups : Nat) (inner : Option Rule) : Prop :=
  ∀ s, ∃ ps, Reads s.cursor ps (group inner s).scanner.cursor ∧
    ∀ e, (group inner s).result = .ok e →
      Derives groups .factor (.symbol .leftParen :: ps.map Placed.lexeme) e

theorem groupSound_none (groups : Nat) : GroupSound groups none := by
  intro s
  exact ⟨[], .done _, by simp [group]⟩

theorem groupSound_some {groups : Nat} {expression : Rule}
    (he : expression.Sound groups .expression) : GroupSound (groups + 1) (some expression) := by
  intro s
  have ⟨ps, hps, hderives⟩ := he s
  rcases group_cases expression s with
    ⟨cause, hc, hrun⟩ | ⟨body, hb, hclose, hrun⟩ | ⟨body, hb, hclose, hrun⟩
  · rw [hrun]
    exact ⟨ps, hps, by simp⟩
  · have ⟨start, hread⟩ := Scanner.reads_next_symbol hclose
    rw [hrun]
    refine ⟨_, hps.append hread, ?_⟩
    intro e he
    obtain rfl := Except.ok.inj he
    simpa using Derives.group (hderives body hb)
  · have ⟨qs, hqs⟩ := (expression.run s).scanner.exists_reads_next
    rw [hrun]
    exact ⟨_, hps.append hqs, by simp⟩

theorem factorOver_sound {groups : Nat} {inner : Option Rule} (hg : GroupSound groups inner) :
    (factorOver inner).Sound groups .factor := by
  intro s
  rcases factorOver_cases inner s with ⟨value, hn, hrun⟩ | ⟨hn, hrun⟩ | ⟨-, -, hrun⟩
  · obtain ⟨n, start, hread, rfl⟩ := Scanner.reads_next_number hn
    rw [hrun]
    refine ⟨_, hread, ?_⟩
    intro e he
    obtain rfl := Except.ok.inj he
    exact .number n
  · have ⟨start, hread⟩ := Scanner.reads_next_symbol hn
    have ⟨ps, hps, hderives⟩ := hg s.next.2
    rw [hrun]
    exact ⟨_, hread.append hps, hderives⟩
  · have ⟨ps, hps⟩ := s.exists_reads_next
    rw [hrun]
    exact ⟨ps, hps, by simp⟩

theorem factorWithin_sound (groups : Nat) : (factorWithin groups).Sound groups .factor := by
  induction groups with
  | zero => exact factorOver_sound (groupSound_none 0)
  | succ groups ih => exact factorOver_sound (groupSound_some (expressionOver_sound ih))

theorem expression_sound (depth : Nat) :
    (expression depth).Sound (maxNesting - depth) .expression :=
  expressionOver_sound (factorWithin_sound _)

end FourFunction.Grammar
