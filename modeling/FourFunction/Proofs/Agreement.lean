import FourFunction.Proofs.Expr.RoundTrip
import FourFunction.Proofs.Numeric.Equality

/-! Equality of results. Doubles are equal by value, so equal trees need not be the same tree, and a
tree may differ from itself. The literals of a parsed tree have no sign and are numbers, and for such
trees neither can happen. -/

namespace FourFunction

open Numeric Grammar

/-! ## Trees -/

namespace Expr

/-- All literals are numbers without a sign. Infinity is allowed. -/
def Nonnegative (e : Expr) : Prop :=
  ∀ v ∈ e.literals, Unsigned v ∧ v.isNaN = false

theorem nonnegative_binary_iff {op : Operator} {left right : Expr} :
    (binary op left right).Nonnegative ↔ left.Nonnegative ∧ right.Nonnegative :=
  List.forall_mem_append

theorem beq_literal (x y : Float) : (literal x == literal y) = (x == y) := rfl

theorem beq_binary_iff {op op' : Operator} {left right left' right' : Expr} :
    (binary op left right == binary op' left' right') = true ↔
      op = op' ∧ (left == left') = true ∧ (right == right') = true := by
  change (decide (op = op') && (left == left') && (right == right')) = true ↔ _
  simp only [Bool.and_eq_true, decide_eq_true_eq, and_assoc]

theorem Nonnegative.beq_self {e : Expr} (h : e.Nonnegative) : (e == e) = true := by
  induction e with
  | literal v => exact (beq_self_iff v).mpr (h v (List.mem_singleton_self v)).2
  | binary op left right ihl ihr =>
      obtain ⟨hl, hr⟩ := nonnegative_binary_iff.mp h
      exact beq_binary_iff.mpr ⟨rfl, ihl hl, ihr hr⟩

/-- Equal trees without signs are the same tree. -/
theorem Nonnegative.eq_of_beq {e e' : Expr} (he : e.Nonnegative) (he' : e'.Nonnegative)
    (h : (e == e') = true) : e = e' := by
  induction e generalizing e' with
  | literal v =>
      cases e' with
      | literal w =>
          rw [beq_literal] at h
          rw [(he v (List.mem_singleton_self v)).1.eq_of_beq (he' w (List.mem_singleton_self w)).1 h]
      | binary op' left' right' => simp [BEq.beq, beq] at h
  | binary op left right ihl ihr =>
      cases e' with
      | literal w => simp [BEq.beq, beq] at h
      | binary op' left' right' =>
          obtain ⟨hl, hr⟩ := nonnegative_binary_iff.mp he
          obtain ⟨hl', hr'⟩ := nonnegative_binary_iff.mp he'
          obtain ⟨rfl, hleft, hright⟩ := beq_binary_iff.mp h
          rw [ihl hl hl' hleft, ihr hr hr' hright]

end Expr

theorem Grammar.nonnegative_of_parse {source : String} {e : Expr} (h : parse source = .ok e) :
    e.Nonnegative := by
  intro v hv
  obtain ⟨n, rfl⟩ := (derives_of_parse h).exists_numeral v hv
  exact ⟨unsigned_nearestFloat n.denotes, isNaN_nearestFloat n.denotes⟩

/-! ## Results -/

section Agree

variable {α : Type} [BEq α]

theorem agree_ok (x y : α) : agree (.ok x : Except ParseError α) (.ok y) = (x == y) := rfl

theorem agree_error_iff {cause : ParseError} {r : Except ParseError α} :
    agree (.error cause) r = true ↔ r = .error cause := by
  cases r with
  | ok x => simp [agree]
  | error cause' => simp [agree, eq_comm]

end Agree

theorem Calculation.beq_iff {c c' : Calculation} :
    (c == c') = true ↔ c.expression = c'.expression ∧ (c.value == c'.value) = true := by
  change (decide (c.expression = c'.expression) && (c.value == c'.value)) = true ↔ _
  simp only [Bool.and_eq_true, decide_eq_true_eq]

theorem agree_parse_self (source : String) : agree (parse source) (parse source) = true := by
  cases h : parse source with
  | ok e => exact (nonnegative_of_parse h).beq_self
  | error cause => exact agree_error_iff.mpr rfl

theorem agree_calculate_iff_of_error {a b : String} {cause : ParseError}
    (h : parse a = .error cause) :
    agree (calculate a) (calculate b) = true ↔ agree (parse a) (parse b) = true := by
  rw [calculate_eq_error_iff.mpr h, h, agree_error_iff, agree_error_iff, calculate_eq_error_iff]

/-- Only a value that is not a number keeps a calculation from being equal to itself, and the text
keeps it from being equal to any other. -/
theorem agree_calculate_iff_of_ok {a b : String} {e : Expr} (h : parse a = .ok e) :
    agree (calculate a) (calculate b) = true ↔ a = b ∧ e.evaluate.isNaN = false := by
  rw [calculate_of_parse h]
  constructor
  · intro hagree
    cases hb : parse b with
    | ok e' =>
        rw [calculate_of_parse hb, agree_ok, Calculation.beq_iff] at hagree
        obtain ⟨htext, hvalue⟩ := hagree
        obtain rfl : a = b := htext
        obtain rfl := Except.ok.inj (h.symm.trans hb)
        exact ⟨rfl, (beq_self_iff _).mp hvalue⟩
    | error cause => simp [calculate_eq_error_iff.mpr hb, agree] at hagree
  · rintro ⟨rfl, hnumber⟩
    rw [calculate_of_parse h, agree_ok, Calculation.beq_iff]
    exact ⟨rfl, (beq_self_iff _).mpr hnumber⟩

/-! ## What equality tells -/

/-- What equality of the results of two sources tells. Equal trees are the same bit by bit and with
them their texts and values, and equal calculations have equal trees. -/
structure Agreement (a b : String) : Prop where
  literals : ∀ e, parse a = .ok e → ∀ v ∈ e.literals, Unsigned v ∧ v.isNaN = false
  refl : agree (parse a) (parse a) = true
  same : ∀ e e', parse a = .ok e → parse b = .ok e' → (e == e') = true →
    e = e' ∧ e.text = e'.text ∧ evaluate a = evaluate b
  accepted : ∀ e, parse a = .ok e →
    (agree (calculate a) (calculate b) = true ↔ a = b ∧ e.evaluate.isNaN = false)
  rejected : ∀ cause, parse a = .error cause →
    (agree (calculate a) (calculate b) = true ↔ agree (parse a) (parse b) = true)
  trees : agree (calculate a) (calculate b) = true → agree (parse a) (parse b) = true

/-- One divided by each of the two zeros: equal trees whose values are the two infinities. -/
theorem exists_beq_of_signed_zeros : ∃ e e' : Expr, (e == e') = true ∧
    Reading.ofFloat e.evaluate = .infinite false ∧ Reading.ofFloat e'.evaluate = .infinite true := by
  refine ⟨.binary .div (.literal (Float.ofBits 0x3ff0000000000000)) (.literal (Float.ofBits 0)),
    .binary .div (.literal (Float.ofBits 0x3ff0000000000000))
      (.literal (Float.ofBits 0x8000000000000000)), ?_, ?_, ?_⟩
  · decide +kernel
  · rw [Expr.evaluate, Expr.evaluateWith_eq_value]
    decide +kernel
  · rw [Expr.evaluate, Expr.evaluateWith_eq_value]
    decide +kernel

/-- Equality of results can be relied on for everything that is parsed, though not for all trees. -/
theorem agreement :
    (∀ a b, Agreement a b) ∧
    ∃ e e' : Expr, (e == e') = true ∧
      Reading.ofFloat e.evaluate = .infinite false ∧
      Reading.ofFloat e'.evaluate = .infinite true := by
  refine ⟨fun a b => ?_, exists_beq_of_signed_zeros⟩
  exact {
    literals := fun e he => nonnegative_of_parse he
    refl := agree_parse_self a
    same := by
      intro e e' he he' hbeq
      obtain rfl := (nonnegative_of_parse he).eq_of_beq (nonnegative_of_parse he') hbeq
      refine ⟨rfl, rfl, ?_⟩
      rw [evaluate, evaluate, he, he']
    accepted := fun e he => agree_calculate_iff_of_ok he
    rejected := fun cause hcause => agree_calculate_iff_of_error hcause
    trees := by
      intro h
      cases hp : parse a with
      | ok e =>
          obtain ⟨rfl, -⟩ := (agree_calculate_iff_of_ok hp).mp h
          rw [← hp]
          exact agree_parse_self a
      | error cause =>
          rw [← hp]
          exact (agree_calculate_iff_of_error hp).mp h }

end FourFunction
