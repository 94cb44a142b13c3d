import FourFunction.Proofs.Precedence
import FourFunction.Proofs.Grammar.Soundness
import FourFunction.Proofs.Lexeme.Proper

/-! Operators outside of all groups. They decide the category of derived lexemes, and the last of
them on the level of a chain is the operator of its tree. -/

namespace FourFunction

/-- By how much a lexeme changes the number of open groups. -/
def Lexeme.opens : Lexeme → Int
  | symbol .leftParen => 1
  | symbol .rightParen => -1
  | _ => 0

namespace Grammar

open Text (append_cons_eq_append_cons)

/-! ## Open groups -/

/-- The number of groups opened by lexemes, less that of those closed. -/
def opened : List Lexeme → Int
  | [] => 0
  | l :: ls => l.opens + opened ls

/-- The lexemes with the number of groups open before each of them, if `n` are open before the
first. -/
def nested (n : Int) : List Lexeme → List (Int × Lexeme)
  | [] => []
  | l :: ls => (n, l) :: nested (n + l.opens) ls

@[simp] theorem opened_append (ls ms : List Lexeme) :
    opened (ls ++ ms) = opened ls + opened ms := by
  induction ls with
  | nil => simp [opened]
  | cons l ls ih => simp [opened, ih, Int.add_assoc]

@[simp] theorem nested_append (n : Int) (ls ms : List Lexeme) :
    nested n (ls ++ ms) = nested n ls ++ nested (n + opened ls) ms := by
  induction ls generalizing n with
  | nil => simp [nested, opened]
  | cons l ls ih => simp [nested, opened, ih, Int.add_assoc]

theorem exists_of_mem_nested {n k : Int} {ls : List Lexeme} {l : Lexeme}
    (h : (k, l) ∈ nested n ls) :
    ∃ before after, ls = before ++ l :: after ∧ k = n + opened before := by
  induction ls generalizing n with
  | nil => simp [nested] at h
  | cons m ls ih =>
      rcases List.mem_cons.mp h with heq | hmem
      · obtain ⟨rfl, rfl⟩ := Prod.mk.inj heq
        exact ⟨[], ls, rfl, by simp [opened]⟩
      · obtain ⟨before, after, rfl, rfl⟩ := ih hmem
        exact ⟨m :: before, after, rfl, by simp [opened, Int.add_assoc]⟩

theorem nested_group {ls : List Lexeme} (h : opened ls = 0) (n : Int) :
    nested n (.symbol .leftParen :: ls ++ [.symbol .rightParen]) =
      (n, .symbol .leftParen) :: (nested (n + 1) ls ++ [(n + 1, .symbol .rightParen)]) := by
  simp [nested, Lexeme.opens, h]

theorem nested_operator {ls : List Lexeme} (h : opened ls = 0) (n : Int) (op : Operator)
    (ms : List Lexeme) :
    nested n (ls ++ .symbol (.operator op) :: ms) =
      nested n ls ++ (n, .symbol (.operator op)) :: nested n ms := by
  simp [nested, Lexeme.opens, h]

theorem forall_mem_nested_operator {P : Int × Lexeme → Prop} {ls ms : List Lexeme} {n : Int}
    {op : Operator} (h : opened ls = 0) :
    (∀ found ∈ nested n (ls ++ .symbol (.operator op) :: ms), P found) ↔
      (∀ found ∈ nested n ls, P found) ∧ P (n, .symbol (.operator op)) ∧
        ∀ found ∈ nested n ms, P found := by
  rw [nested_operator h, List.forall_mem_append, List.forall_mem_cons]

theorem mem_nested_operator {ls : List Lexeme} (h : opened ls = 0) (n : Int) (op : Operator)
    (ms : List Lexeme) :
    (n, .symbol (.operator op)) ∈ nested n (ls ++ .symbol (.operator op) :: ms) := by
  rw [nested_operator h]
  exact List.mem_append_right _ List.mem_cons_self

variable {groups : Nat} {category : Category} {level : Level} {ls ms : List Lexeme} {e : Expr}

theorem Derives.opened_eq_zero (h : Derives groups category ls e) : opened ls = 0 := by
  induction h with
  | number n => rfl
  | group _ ih => simp [opened, Lexeme.opens, ih]
  | factor _ ih => exact ih
  | product _ _ _ ihl ihr => simp [opened, Lexeme.opens, ihl, ihr]
  | term _ ih => exact ih
  | sum _ _ _ ihl ihr => simp [opened, Lexeme.opens, ihl, ihr]

/-- Derived lexemes close no group that was open before them. -/
theorem Derives.le_of_mem_nested (h : Derives groups category ls e) :
    ∀ n : Int, ∀ found ∈ nested n ls, n ≤ found.1 := by
  induction h with
  | number k =>
      intro n
      simp [nested]
  | group hbody ih =>
      intro n
      rw [nested_group hbody.opened_eq_zero, List.forall_mem_cons, List.forall_mem_append,
        List.forall_mem_singleton]
      refine ⟨Int.le_refl n, ?_, by omega⟩
      intro found hfound
      have := ih (n + 1) found hfound
      omega
  | factor _ ih => exact ih
  | product _ hl _ ihl ihr =>
      intro n
      exact (forall_mem_nested_operator hl.opened_eq_zero).mpr ⟨ihl n, Int.le_refl n, ihr n⟩
  | term _ ih => exact ih
  | sum _ hl _ ihl ihr =>
      intro n
      exact (forall_mem_nested_operator hl.opened_eq_zero).mpr ⟨ihl n, Int.le_refl n, ihr n⟩

/-- Derived lexemes may be derived with fewer groups, if no more are open anywhere. -/
theorem Derives.of_mem_nested (h : Derives groups category ls e) :
    ∀ (fewer : Nat) (n : Int),
      (∀ found ∈ nested n ls, found.2 = .symbol .leftParen → found.1 < n + fewer) →
      Derives fewer category ls e := by
  induction h with
  | number k =>
      intro fewer n _
      exact .number k
  | @group groups ls e hbody ih =>
      intro fewer n hfewer
      rw [nested_group hbody.opened_eq_zero, List.forall_mem_cons, List.forall_mem_append] at hfewer
      obtain ⟨hfirst, hinner, -⟩ := hfewer
      have hpos := hfirst rfl
      obtain ⟨fewer, rfl⟩ : ∃ k, fewer = k + 1 := ⟨fewer - 1, by simp only at hpos; omega⟩
      refine .group (ih fewer (n + 1) ?_)
      intro found hfound hl
      have := hinner found hfound hl
      omega
  | factor _ ih =>
      intro fewer n hfewer
      exact .factor (ih fewer n hfewer)
  | product hop hl _ ihl ihr =>
      intro fewer n hfewer
      obtain ⟨hleft, -, hright⟩ := (forall_mem_nested_operator hl.opened_eq_zero).mp hfewer
      exact .product hop (ihl fewer n hleft) (ihr fewer n hright)
  | term _ ih =>
      intro fewer n hfewer
      exact .term (ih fewer n hfewer)
  | sum hop hl _ ihl ihr =>
      intro fewer n hfewer
      obtain ⟨hleft, -, hright⟩ := (forall_mem_nested_operator hl.opened_eq_zero).mp hfewer
      exact .sum hop (ihl fewer n hleft) (ihr fewer n hright)

/-! ## Outer operators -/

/-- No operator of the level stands outside of all groups. -/
def Chainless (level : Level) (ls : List Lexeme) : Prop :=
  ∀ op : Operator, (0, .symbol (.operator op)) ∈ nested 0 ls → op ∉ level.operators

/-- The operators that may stand outside of all groups in lexemes of a category. -/
def Category.Admits : Category → Operator → Prop
  | .expression, _ => True
  | .term, op => op = .mul ∨ op = .div
  | .factor, _ => False

theorem Derives.admits (h : Derives groups category ls e) :
    ∀ (n : Int) (op : Operator), (n, .symbol (.operator op)) ∈ nested n ls →
      category.Admits op := by
  induction h with
  | number k =>
      intro n op hmem
      simp [nested] at hmem
  | group hbody ih =>
      intro n op hmem
      -- Whatever stands in a group has one more group open before it.
      rw [nested_group hbody.opened_eq_zero, List.mem_cons, List.mem_append] at hmem
      rcases hmem with hfirst | hinner | hlast
      · simp at hfirst
      · have := hbody.le_of_mem_nested (n + 1) _ hinner
        simp only at this
        omega
      · simp at hlast
  | factor _ ih =>
      intro n op hmem
      exact (ih n op hmem).elim
  | @product groups ls ms left right op hop hl _ ihl ihr =>
      intro n op' hmem
      rw [nested_operator hl.opened_eq_zero, List.mem_append, List.mem_cons] at hmem
      rcases hmem with hleft | hroot | hright
      · exact ihl n op' hleft
      · obtain rfl : op' = op := by simpa using hroot
        exact hop
      · exact (ihr n op' hright).elim
  | term _ _ =>
      intro n op hmem
      trivial
  | sum _ _ _ _ _ =>
      intro n op hmem
      trivial

theorem Derives.chainless (h : Derives groups (.ofOperand level) ls e) : Chainless level ls := by
  intro op hmem hop
  have hadmits := h.admits 0 op hmem
  cases level with
  | sum => rcases hadmits with rfl | rfl <;> simp at hop
  | product => exact hadmits

/-- A chain is one operand, or a chain with an operator and another operand after it. -/
theorem Derives.chain_cases (h : Derives groups (.ofChain level) ls e) :
    Derives groups (.ofOperand level) ls e ∨
      ∃ (ms ns : List Lexeme) (left right : Expr) (op : Operator),
        ls = ms ++ .symbol (.operator op) :: ns ∧ e = .binary op left right ∧ op ∈ level.operators ∧
        Derives groups (.ofChain level) ms left ∧ Derives groups (.ofOperand level) ns right := by
  cases level with
  | sum =>
      cases h with
      | term h => exact .inl h
      | sum hop hl hr =>
          exact .inr ⟨_, _, _, _, _, rfl, rfl, Level.mem_operators_sum.mpr hop, hl, hr⟩
  | product =>
      cases h with
      | factor h => exact .inl h
      | product hop hl hr =>
          exact .inr ⟨_, _, _, _, _, rfl, rfl, Level.mem_operators_product.mpr hop, hl, hr⟩

theorem Derives.operand_of_chainless (h : Derives groups (.ofChain level) ls e)
    (hls : Chainless level ls) : Derives groups (.ofOperand level) ls e := by
  rcases h.chain_cases with hoperand | ⟨ms, ns, left, right, op, rfl, -, hop, hl, -⟩
  · exact hoperand
  · exact absurd hop (hls op (mem_nested_operator hl.opened_eq_zero 0 op ns))

/-- A chain divides at the last operator of its level that stands outside of all groups. -/
theorem Derives.exists_of_last {op : Operator}
    (h : Derives groups (.ofChain level) (ls ++ .symbol (.operator op) :: ms) e)
    (hop : op ∈ level.operators) (hls : opened ls = 0) (hms : Chainless level ms) :
    ∃ left right, e = .binary op left right ∧ Derives groups (.ofChain level) ls left ∧
      Derives groups (.ofOperand level) ms right := by
  rcases h.chain_cases with hoperand | ⟨ms', ns, left, right, op', hlist, rfl, hop', hl, hr⟩
  · exact absurd hop (hoperand.chainless op (mem_nested_operator hls 0 op ms))
  · have hms' := hl.opened_eq_zero
    -- If they are not the same operator, the later one stands outside of all groups of its operand.
    rcases append_cons_eq_append_cons hlist with
      ⟨rest, rfl, rfl⟩ | ⟨rfl, heq, rfl⟩ | ⟨rest, rfl, rfl⟩
    · have hrest : opened rest = 0 := by simpa [opened, Lexeme.opens, hms'] using hls
      exact absurd hop (hr.chainless op (mem_nested_operator hrest 0 op ms))
    · obtain rfl : op' = op := by simpa using heq
      exact ⟨left, right, rfl, hl, hr⟩
    · have hrest : opened rest = 0 := by simpa [opened, Lexeme.opens, hls] using hms'
      exact absurd hop' (hms op' (mem_nested_operator hrest 0 op' ns))

end Grammar

end FourFunction
