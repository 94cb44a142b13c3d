import FourFunction.Proofs.Decimal.Plain
import FourFunction.Proofs.Expr.RoundTrip

/-! Trees told apart by their texts. The parentheses and the blanks show where every operand ends,
also if it is a literal with a sign next to the operator. -/

namespace FourFunction

open Numeric

/-- The same bits. All values that are not numbers count as the same. -/
def Numeric.Identical (x y : Float) : Prop :=
  x.toBits = y.toBits ∨ x.isNaN = true ∧ y.isNaN = true

theorem Numeric.identical_iff {x y : Float} : Identical x y ↔ x = y := by
  constructor
  · rintro (hbits | ⟨hx, hy⟩)
    · exact eq_of_toBits_eq (congrArg UInt64.toNat hbits)
    · exact eq_of_isNaN hx hy
  · rintro rfl
    exact .inl rfl

namespace Expr

/-- Trees of one shape, with the same operators and with identical literals. -/
inductive Identical : Expr → Expr → Prop where
  | literal {v w : Float} : Numeric.Identical v w → Identical (literal v) (literal w)
  | binary {op : Operator} {left right left' right' : Expr} :
      Identical left left' → Identical right right' →
      Identical (binary op left right) (binary op left' right')

theorem identical_iff {a b : Expr} : Identical a b ↔ a = b := by
  constructor
  · intro h
    induction h with
    | literal h => rw [Numeric.identical_iff.mp h]
    | binary _ _ ihl ihr => rw [ihl, ihr]
  · rintro rfl
    induction a with
    | literal v => exact .literal (Numeric.identical_iff.mpr rfl)
    | binary op left right ihl ihr => exact .binary ihl ihr

/-! ## Where an operand ends -/

/-- A text that may go on after an operand: nothing is left, or the blank before an operator or the
parenthesis that closes a group. -/
def Closes (rest : List Char) : Prop :=
  ∀ c ∈ rest.head?, c = ' ' ∨ c = ')'

theorem closes_nil : Closes [] := by
  simp [Closes]

theorem closes_blank (rest : List Char) : Closes (' ' :: rest) := by
  simp [Closes]

theorem closes_rightParen (rest : List Char) : Closes (')' :: rest) := by
  simp [Closes]

theorem Closes.not_mem_plain {c : Char} {rest : List Char} (h : Closes (c :: rest)) (v : Float) :
    c ∉ Decimal.plain v := by
  rcases h c rfl with rfl | rfl
  · exact Decimal.not_mem_plain rfl (by decide) v
  · exact Decimal.not_mem_plain rfl (by decide) v

/-- A literal ends where the next character does not belong to literals. -/
theorem exists_of_plain_append {v w : Float} {r s : List Char} (hr : Closes r)
    (h : Decimal.plain v ++ r = Decimal.plain w ++ s) :
    ∃ t, Decimal.plain v = Decimal.plain w ++ t ∧ s = t ++ r := by
  rcases List.append_eq_append_iff.mp h with ⟨t, hw, hrest⟩ | ⟨t, hv, hs⟩
  · cases t with
    | nil => exact ⟨[], by rw [hw, List.append_nil, List.append_nil], hrest.symm⟩
    | cons c t =>
        rw [hrest] at hr
        exact absurd (by simp [hw]) (hr.not_mem_plain w)
  · exact ⟨t, hv, hs⟩

theorem eq_of_plain_append_eq {v w : Float} {r s : List Char} (hr : Closes r) (hs : Closes s)
    (h : Decimal.plain v ++ r = Decimal.plain w ++ s) : v = w ∧ r = s := by
  obtain ⟨t, hv, hst⟩ := exists_of_plain_append hr h
  obtain ⟨u, hw, hru⟩ := exists_of_plain_append hs h.symm
  obtain rfl : t = [] := by
    have hlength := congrArg List.length (hst.trans (congrArg (t ++ ·) hru))
    simp only [List.length_append] at hlength
    exact List.length_eq_zero_iff.mp (by omega)
  exact ⟨Decimal.plain_injective (by simpa using hv), hst.symm⟩

/-- No literal starts with a parenthesis. -/
theorem plain_append_ne {v : Float} {r s : List Char} (hr : Closes r) :
    Decimal.plain v ++ r ≠ '(' :: s := by
  intro h
  cases hv : Decimal.plain v with
  | nil =>
      rw [hv, List.nil_append] at h
      simp [h, Closes] at hr
  | cons c cs =>
      rw [hv, List.cons_append] at h
      obtain ⟨rfl, -⟩ := List.cons.inj h
      exact Decimal.not_mem_plain rfl (by decide) v (hv ▸ List.mem_cons_self)

/-! ## Texts of trees -/

/-- A tree is read off from the front of a text, and so is the rest of the text. -/
theorem eq_of_render_append_eq {a b : Expr} {r s : List Char} (hr : Closes r) (hs : Closes s)
    (h : a.render.toList ++ r = b.render.toList ++ s) : a = b ∧ r = s := by
  induction a generalizing b r s with
  | literal v =>
      cases b with
      | literal w =>
          rw [toList_render_literal, toList_render_literal] at h
          obtain ⟨rfl, hrest⟩ := eq_of_plain_append_eq hr hs h
          exact ⟨rfl, hrest⟩
      | binary op left right =>
          rw [toList_render_literal, toList_render_binary] at h
          exact absurd h (plain_append_ne hr)
  | binary op left right ihl ihr =>
      cases b with
      | literal w =>
          rw [toList_render_literal, toList_render_binary] at h
          exact absurd h.symm (plain_append_ne hs)
      | binary op' left' right' =>
          simp only [toList_render_binary, List.cons_append, List.append_assoc, List.cons.injEq,
            true_and, List.nil_append] at h
          obtain ⟨rfl, hafter⟩ := ihl (closes_blank _) (closes_blank _) h
          simp only [List.cons.injEq, true_and] at hafter
          obtain ⟨hchar, hright⟩ := hafter
          obtain ⟨rfl, hrest⟩ := ihr (closes_rightParen r) (closes_rightParen s) hright
          have hop : Symbol.operator op = Symbol.operator op' := Symbol.toChar_injective hchar
          obtain rfl := Symbol.operator.inj hop
          exact ⟨rfl, (List.cons.inj hrest).2⟩

/-- A tree is written as its rendering by recursion, and trees with one text are identical. -/
theorem text_tells_apart :
    (∀ e : Expr, e.text = e.render) ∧ ∀ a b : Expr, a.text = b.text ↔ Identical a b := by
  refine ⟨text_eq_render, fun a b => ?_⟩
  rw [identical_iff]
  constructor
  · intro h
    rw [text_eq_render, text_eq_render] at h
    exact (eq_of_render_append_eq closes_nil closes_nil
      (congrArg (String.toList · ++ []) h)).1
  · rintro rfl
    rfl

end Expr

end FourFunction
