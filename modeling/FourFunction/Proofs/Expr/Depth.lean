import FourFunction.Proofs.Decimal.Plain
import FourFunction.Proofs.Expr.RoundTrip
import FourFunction.Text.Parens
import FourFunction.Trace.Account
import Mathlib.Order.Bounds.Basic

/-! The depth of a tree seen in three ways: in its shape, in the parentheses of its text, and against
the number of its literals. -/

namespace FourFunction

open Text Grammar

/-! ## Open parentheses -/

/-- The peak is reached at some place and not exceeded at any. -/
theorem Text.isGreatest_peak (cs : List Char) :
    IsGreatest {d | ∃ before, before <+: cs ∧ depth before = d} (peak cs) := by
  induction cs with
  | nil => simp [peak, IsGreatest, upperBounds]
  | cons c cs ih =>
      obtain ⟨⟨before, hbefore, hdepth⟩, hupper⟩ := ih
      have hcons : ∀ ds, depth (c :: ds) = depth [c] + depth ds := depth_append [c]
      constructor
      · rcases le_total (depth [c] + peak cs) 0 with hle | hge
        · exact ⟨[], List.nil_prefix, by rw [peak, max_eq_left hle, depth_nil]⟩
        · refine ⟨c :: before, List.cons_prefix_cons.mpr ⟨rfl, hbefore⟩, ?_⟩
          rw [peak, max_eq_right hge, hcons, hdepth]
      · rintro d ⟨start, hstart, rfl⟩
        rw [peak]
        rcases List.prefix_cons_iff.mp hstart with rfl | ⟨ds, rfl, hds⟩
        · exact le_max_left _ _
        · rw [hcons]
          exact le_max_of_le_right (Int.add_le_add_left (hupper ⟨ds, hds, rfl⟩) _)

namespace Expr

theorem parens_not_mem_plain (v : Float) : ∀ c ∈ Decimal.plain v, c ≠ '(' ∧ c ≠ ')' := by
  intro c hc
  constructor <;> rintro rfl <;> exact Decimal.not_mem_plain rfl (by decide) v hc

/-- All parentheses of a text are closed at its end. -/
theorem depth_render (e : Expr) : Text.depth e.render.toList = 0 := by
  induction e with
  | literal v =>
      rw [toList_render_literal]
      exact depth_eq_zero (parens_not_mem_plain v)
  | binary op left right ihl ihr =>
      have hblank : ∀ cs, Text.depth (' ' :: cs) = Text.depth cs := by simp [Text.depth]
      simp [toList_render_binary, ihl, ihr, hblank]

/-- Every level of a tree but the last opens a parenthesis. -/
theorem peak_render (e : Expr) : peak e.render.toList = e.height - 1 := by
  induction e with
  | literal v =>
      rw [toList_render_literal, peak_eq_zero (parens_not_mem_plain v), height]
      rfl
  | binary op left right ihl ihr =>
      have hleft := left.height_pos
      have hright := right.height_pos
      have hparen : Text.depth ['('] = 1 := rfl
      have hclose : Text.depth [')'] = -1 := rfl
      have hblank : Text.depth [' '] = 0 := rfl
      have hop : Text.depth [op.toChar] = 0 := depth_toChar op []
      simp only [toList_render_binary, peak, peak_append, depth_render, ihl, ihr, height, hparen,
        hclose, hblank, hop]
      omega

/-! ## Literals -/

theorem height_le_length_literals (e : Expr) : e.height ≤ e.literals.length := by
  induction e with
  | literal v => exact le_rfl
  | binary op left right ihl ihr =>
      have hleft := left.height_pos
      have hright := right.height_pos
      rw [height, literals, List.length_append]
      omega

end Expr

/-- Every literal of a derived tree is one of the numerals. -/
theorem Grammar.Derives.countP_isNumeral {groups : Nat} {category : Category} {ls : List Lexeme}
    {e : Expr} (h : Derives groups category ls e) :
    ls.countP Lexeme.isNumeral = e.literals.length := by
  induction h with
  | number n => rfl
  | group _ ih => simp [Lexeme.isNumeral, ih]
  | factor _ ih => exact ih
  | product _ _ _ ihl ihr => simp [Expr.literals, Lexeme.isNumeral, ihl, ihr]
  | term _ ih => exact ih
  | sum _ _ _ ihl ihr => simp [Expr.literals, Lexeme.isNumeral, ihl, ihr]

namespace Expr

/-- What the depth of a tree measures: the height of the tree, and one more than the parentheses that
are open at once in its text. It is no more than the literals of the tree, which are the numerals of
every source from which the tree is parsed. -/
structure MeasuresDepth (e : Expr) : Prop where
  height : e.depth = e.height
  parens : ∃ most, IsGreatest {d | ∃ before, before <+: e.text.toList ∧ Text.depth before = d} most ∧
    (e.depth : Int) = 1 + most
  literals : e.depth ≤ e.literals.length
  numerals : ∀ source, parse source = .ok e →
    ((lexemes source).map Placed.lexeme).countP Lexeme.isNumeral = e.literals.length ∧
      e.depth ≤ ((lexemes source).map Placed.lexeme).countP Lexeme.isNumeral

theorem measuresDepth (e : Expr) : MeasuresDepth e where
  height := e.depth_eq_height
  parens := by
    refine ⟨_, isGreatest_peak _, ?_⟩
    rw [text_eq_render, peak_render, depth_eq_height]
    omega
  literals := e.depth_eq_height.trans_le e.height_le_length_literals
  numerals := by
    intro source h
    rw [(derives_of_parse h).countP_isNumeral]
    exact ⟨rfl, e.depth_eq_height.trans_le e.height_le_length_literals⟩

end Expr

end FourFunction
