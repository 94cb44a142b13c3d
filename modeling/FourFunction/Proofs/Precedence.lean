import FourFunction.Expr.Evaluation
import FourFunction.Grammar.Derivation
import FourFunction.Precedence

/-! Evaluation by operator precedence and evaluation of trees agree. Values may be of any type, and
with trees as values the two stacks build the tree itself. So lexemes have one tree at most. -/

namespace FourFunction

/-! ## Folding trees -/

/-- The result of a tree with its literals and operators replaced. -/
def Expr.fold {α : Type} (literal : Float → α) (meaning : Operator → α → α → α) : Expr → α
  | .literal v => literal v
  | .binary op left right => meaning op (left.fold literal meaning) (right.fold literal meaning)

theorem Expr.fold_id (meaning : Operator → Float → Float → Float) (e : Expr) :
    e.fold id meaning = e.value meaning := by
  induction e with
  | literal v => rfl
  | binary op left right ihl ihr => rw [fold, ihl, ihr, value]

theorem Expr.fold_constructors (e : Expr) : e.fold .literal .binary = e := by
  induction e with
  | literal v => rfl
  | binary op left right ihl ihr => rw [fold, ihl, ihr]

theorem Expr.evaluateWith_eq_value (meaning : Operator → Float → Float → Float) (e : Expr) :
    e.evaluateWith meaning = e.value meaning := by
  rw [evaluateWith, run_visit, run]

theorem Expr.evaluate_binary (op : Operator) (left right : Expr) :
    (binary op left right).evaluate = op.apply left.evaluate right.evaluate := by
  simp only [evaluate, evaluateWith_eq_value, value]

namespace Precedence

open Grammar (Category Derives)

variable {α : Type} {literal : Float → α} {meaning : Operator → α → α → α}

/-! ## Applying operators -/

theorem reduce_operator {due : Operator → Bool} {op : Operator} (h : due op = true) (left right : α)
    (values : List α) (pending : List Pending) :
    reduce meaning due (right :: left :: values) (.operator op :: pending) =
      reduce meaning due (meaning op left right :: values) pending := by
  rw [reduce, if_pos h]

/-- Nothing is applied if no operator on top is due. -/
theorem reduce_of_not_due {due : Operator → Bool} {pending : List Pending}
    (h : ∀ op rest, pending = .operator op :: rest → due op = false) (values : List α) :
    reduce meaning due values pending = ⟨values, pending⟩ := by
  unfold reduce
  split
  next right left values op pending => simp [h op pending rfl]
  next => rfl

/-! ## What may be pending -/

/-- What may be on top of the pending operators where lexemes of a category start. An expression
starts a source or a group, and a term may also be the right operand of a sum. -/
def Starts : Category → List Pending → Prop
  | .expression, pending => ∀ op rest, pending ≠ .operator op :: rest
  | .term, pending => ∀ op rest, pending = .operator op :: rest → op = .add ∨ op = .sub
  | .factor, _ => True

/-- The operators of a category are due, so that nothing is left of its lexemes but a value. -/
def Settles : Category → (Operator → Bool) → Prop
  | .expression, due => ∀ op, due op = true
  | .term, due => ∀ op, op = .mul ∨ op = .div → due op = true
  | .factor, _ => True

theorem Starts.term {pending : List Pending} (h : Starts .expression pending) :
    Starts .term pending := by
  intro op rest hp
  exact absurd hp (h op rest)

theorem Settles.term {due : Operator → Bool} (h : Settles .expression due) : Settles .term due :=
  fun op _ => h op

theorem settles_yields_product {op : Operator} : Settles .term (yields · op) := by
  intro waiting hw
  exact decide_eq_true (.inl hw)

theorem settles_yields_sum {op : Operator} (h : op = .add ∨ op = .sub) :
    Settles .expression (yields · op) := by
  intro waiting
  exact decide_eq_true (.inr h)

theorem yields_product_eq_false {waiting next : Operator} (hw : waiting = .add ∨ waiting = .sub)
    (hn : next = .mul ∨ next = .div) : yields waiting next = false := by
  rcases hw with rfl | rfl <;> rcases hn with rfl | rfl <;> rfl

/-! ## Derived lexemes -/

/-- Taking lexemes of a category puts the value of their tree on the stack, as far as can be seen
once the operators of the category are applied. -/
theorem reduce_foldl_take {groups : Nat} {category : Category} {ls : List Lexeme} {e : Expr}
    (h : Derives groups category ls e) :
    ∀ (s : Stacks α) (due : Operator → Bool), Starts category s.pending → Settles category due →
      reduce meaning due (ls.foldl (take literal meaning) s).values
          (ls.foldl (take literal meaning) s).pending =
        reduce meaning due (e.fold literal meaning :: s.values) s.pending := by
  induction h with
  | number n =>
      intro s due _ _
      rfl
  | @group groups ls e _ ih =>
      intro s due _ _
      -- The group shields what is pending below it, so only the value of the body is left.
      have hinner := (ih ⟨s.values, .group :: s.pending⟩ (fun _ => true) (by simp [Starts])
        (by simp [Settles])).trans (reduce_of_not_due (by simp) _)
      have hstart : take literal meaning s (.symbol .leftParen) =
          ⟨s.values, .group :: s.pending⟩ := rfl
      simp only [List.cons_append, List.foldl_cons, List.foldl_append, List.foldl_nil, hstart]
      simp only [take, hinner, List.tail_cons]
  | factor _ ih =>
      intro s due _ _
      exact ih s due trivial trivial
  | @product groups ls ms left right op hop _ _ ihl ihr =>
      intro s due hs hd
      -- The operator settles its left operand and stops there: below may only be a sum.
      have hleft := (ihl s (yields · op) hs settles_yields_product).trans (reduce_of_not_due
        (fun waiting rest hp => yields_product_eq_false (hs waiting rest hp) hop) _)
      rw [List.foldl_append, List.foldl_cons, ihr _ due trivial trivial]
      simp only [take, hleft]
      rw [reduce_operator (hd op hop), Expr.fold]
  | term _ ih =>
      intro s due hs hd
      exact ih s due hs.term hd.term
  | @sum groups ls ms left right op hop _ _ ihl ihr =>
      intro s due hs hd
      have hleft := (ihl s (yields · op) hs (settles_yields_sum hop)).trans (reduce_of_not_due
        (fun waiting rest hp => absurd hp (hs waiting rest)) _)
      -- The right operand starts above the sum, which it may not settle.
      have hstart : Starts .term (take literal meaning (ls.foldl (take literal meaning) s)
          (.symbol (.operator op))).pending := by
        intro waiting rest hp
        simp only [take, List.cons.injEq, Pending.operator.injEq] at hp
        exact hp.1 ▸ hop
      rw [List.foldl_append, List.foldl_cons, ihr _ due hstart hd.term]
      simp only [take, hleft]
      rw [reduce_operator (hd op), Expr.fold]

/-- The two stacks end with the value of the tree of derived lexemes and nothing else. -/
theorem run_of_derives {groups : Nat} {ls : List Lexeme} {e : Expr}
    (h : Derives groups .expression ls e) (literal : Float → α)
    (meaning : Operator → α → α → α) :
    run literal meaning ls = ⟨[e.fold literal meaning], []⟩ :=
  (reduce_foldl_take h ⟨[], []⟩ (fun _ => true) (by simp [Starts]) (by simp [Settles])).trans
    (reduce_of_not_due (by simp) _)

end Precedence

namespace Grammar

theorem Derives.toExpression {groups : Nat} {category : Category} {ls : List Lexeme} {e : Expr}
    (h : Derives groups category ls e) : Derives groups .expression ls e := by
  cases category with
  | expression => exact h
  | term => exact .term h
  | factor => exact .term (.factor h)

/-- Two factors with an operator between them are an expression of that operator. -/
theorem derives_binary {groups : Nat} {ls ms : List Lexeme} {left right : Expr} (op : Operator)
    (hl : Derives groups .factor ls left) (hr : Derives groups .factor ms right) :
    Derives groups .expression (ls ++ .symbol (.operator op) :: ms) (.binary op left right) := by
  have hcases : (op = .add ∨ op = .sub) ∨ (op = .mul ∨ op = .div) := by cases op <;> decide
  rcases hcases with hsum | hproduct
  · exact .sum hsum hl.toExpression (.factor hr)
  · exact .term (.product hproduct (.factor hl) hr)

/-- Lexemes have at most one tree, whatever their category and the groups they may open. -/
theorem Derives.eq_of_derives {groups groups' : Nat} {category category' : Category}
    {ls : List Lexeme} {e e' : Expr} (h : Derives groups category ls e)
    (h' : Derives groups' category' ls e') : e = e' := by
  have he := Precedence.run_of_derives h.toExpression Expr.literal Expr.binary
  have he' := Precedence.run_of_derives h'.toExpression Expr.literal Expr.binary
  rw [Expr.fold_constructors] at he he'
  rw [he] at he'
  simpa using he'

end Grammar

end FourFunction
