import FourFunction.Expr.Depth
import FourFunction.Expr.Rendering
import FourFunction.Proofs.Decimal.Shortest
import FourFunction.Proofs.Grammar.Exactness

/-! Trees that are written and parsed again. Every operator is written with parentheses around it,
so the groups of the text are nested as deep as the tree is high, the literals not counted. -/

namespace FourFunction

open Numeric Grammar

namespace Expr

/-- The literals of a tree from left to right. -/
def literals : Expr → List Float
  | literal v => [v]
  | binary _ left right => left.literals ++ right.literals

/-- All literals are finite and have no sign, so that numerals can be written for them. -/
def Printable (e : Expr) : Prop :=
  ∀ v ∈ e.literals, ∃ magnitude, Reading.ofFloat v = .finite false magnitude

theorem printable_binary_iff {op : Operator} {left right : Expr} :
    (binary op left right).Printable ↔ left.Printable ∧ right.Printable :=
  List.forall_mem_append

theorem height_pos (e : Expr) : 0 < e.height := by
  cases e <;> simp [height]

theorem depth_eq_height (e : Expr) : e.depth = e.height := by
  have := e.height_pos
  rw [depth, deepest_cons, deepest]
  omega

theorem text_eq_render (e : Expr) : e.text = e.render := by
  rw [text, write_node, write, String.empty_append]

theorem toList_render_literal (v : Float) : (literal v).render.toList = Decimal.plain v := by
  rw [render, Decimal.plainText, String.toList_ofList]

theorem toList_render_binary (op : Operator) (left right : Expr) :
    (binary op left right).render.toList =
      '(' :: (left.render.toList ++ ' ' :: op.toChar :: ' ' :: (right.render.toList ++ [')'])) := by
  simp [render, Operator.text]

/-! ## The lexemes of a text -/

/-- The lexemes as which a tree is written. A tree has many, since a literal has many numerals. -/
inductive Spelled : Expr → List Lexeme → Prop where
  | literal {n : Numeral} : n.Proper → Spelled (.literal n.value) [.numeral n]
  | binary {op : Operator} {left right : Expr} {ls ms : List Lexeme} :
      Spelled left ls → Spelled right ms →
      Spelled (.binary op left right)
        (.symbol .leftParen :: (ls ++ .symbol (.operator op) :: ms) ++ [.symbol .rightParen])

theorem Printable.exists_spelled {e : Expr} (h : e.Printable) :
    ∃ ls, e.Spelled ls ∧ Splits ls e.render.toList := by
  induction e with
  | literal v =>
      obtain ⟨magnitude, hv⟩ := h v (List.mem_singleton_self v)
      obtain ⟨n, hn, htext, rfl⟩ := Decimal.exists_numeral_plain hv
      refine ⟨[.numeral n], .literal hn, ?_⟩
      rw [toList_render_literal, ← htext]
      exact Lexeme.Proper.splits (l := .numeral n) hn
  | binary op left right ihl ihr =>
      obtain ⟨hl, hr⟩ := printable_binary_iff.mp h
      obtain ⟨ls, hls, hlsplits⟩ := ihl hl
      obtain ⟨ms, hms, hmsplits⟩ := ihr hr
      refine ⟨_, .binary hls hms, ?_⟩
      have hblank : [' '] ⊆ Text.blanks := by simp [Text.blanks]
      have hop := (splits_symbol (.operator op)).append_blanks hblank
      have hinner := hlsplits.append (hop.append (hmsplits.append_blanks hblank))
      have hgroup := ((splits_symbol .leftParen).append hinner).append (splits_symbol .rightParen)
      have htext : (binary op left right).render.toList =
          ['('] ++ (left.render.toList ++
            ([' '] ++ [op.toChar] ++ ([' '] ++ right.render.toList))) ++ [')'] := by
        simp [toList_render_binary]
      rw [htext]
      exact hgroup

/-! ## Groups that may be opened -/

theorem Spelled.derives {e : Expr} {ls : List Lexeme} (h : e.Spelled ls) :
    ∀ groups, e.height ≤ groups + 1 → Derives groups .factor ls e := by
  induction h with
  | @literal n _ =>
      intro groups _
      exact .number n
  | @binary op left right ls ms _ _ ihl ihr =>
      intro groups hheight
      have hleft := left.height_pos
      rw [height] at hheight
      obtain ⟨g, rfl⟩ := Nat.exists_eq_add_of_le' (show 1 ≤ groups by omega)
      exact .group (derives_binary op (ihl g (by omega)) (ihr g (by omega)))

/-- A tree that is too high for the groups left leads to a parenthesis that may not be opened. -/
theorem Spelled.exists_leftParen {e : Expr} {ls : List Lexeme} (h : e.Spelled ls) :
    ∀ opened, opened ≤ maxNesting → maxNesting + 1 < opened + e.height →
      ∃ before after, ls = before ++ .symbol .leftParen :: after ∧
        Stage.through ⟨.operand, opened⟩ before = some ⟨.operand, maxNesting⟩ := by
  induction h with
  | literal _ =>
      intro opened ho hheight
      rw [height] at hheight
      omega
  | @binary op left right ls ms hls hms ihl ihr =>
      intro opened ho hheight
      rw [height] at hheight
      -- Its own parenthesis is one too many, or one operand inside of it is too high.
      rcases Nat.lt_or_eq_of_le ho with hlt | rfl
      · by_cases hl : maxNesting + 1 < opened + 1 + left.height
        · obtain ⟨before, after, rfl, hbefore⟩ := ihl (opened + 1) hlt hl
          refine ⟨.symbol .leftParen :: before,
            after ++ .symbol (.operator op) :: ms ++ [.symbol .rightParen], by simp, ?_⟩
          rw [Stage.through_leftParen hlt, hbefore]
        · obtain ⟨before, after, rfl, hbefore⟩ := ihr (opened + 1) hlt (by omega)
          have hleft := (hls.derives (maxNesting - (opened + 1)) (by omega)).through (opened + 1)
            (by omega)
          refine ⟨.symbol .leftParen :: (ls ++ .symbol (.operator op) :: before),
            after ++ [.symbol .rightParen], by simp, ?_⟩
          rw [Stage.through_leftParen hlt, Stage.through_append, hleft, Option.bind_some,
            Stage.through_operator, hbefore]
      · exact ⟨[], _, rfl, rfl⟩

end Expr

namespace Grammar

/-- A parenthesis too many is the error of a source. -/
theorem exists_verdictOf_eq_nestingTooDeep {source : String} {before after : List Lexeme}
    (h : (lexemes source).map Placed.lexeme = before ++ .symbol .leftParen :: after)
    (hbefore : Stage.initial.through before = some ⟨.operand, maxNesting⟩) :
    ∃ offset, verdictOf source = .error (.nestingTooDeep maxNesting offset) := by
  obtain ⟨ps, qs, hlexemes, rfl, hqs⟩ := List.map_eq_append_iff.mp h
  obtain ⟨q, rest, rfl, hq, -⟩ := List.map_eq_cons_iff.mp hqs
  refine ⟨q.start, ?_⟩
  rw [verdictOf, hlexemes, Stage.judge_append _ hbefore, Stage.judge, hq]
  rfl

/-- The literals of a parsed tree are values of numerals. -/
theorem Derives.exists_numeral {groups : Nat} {category : Category} {ls : List Lexeme} {e : Expr}
    (h : Derives groups category ls e) : ∀ v ∈ e.literals, ∃ n : Numeral, n.value = v := by
  induction h with
  | number n =>
      intro v hv
      exact ⟨n, (List.mem_singleton.mp hv).symm⟩
  | group _ ih => exact ih
  | factor _ ih => exact ih
  | product _ _ _ ihl ihr => exact List.forall_mem_append.mpr ⟨ihl, ihr⟩
  | term _ ih => exact ih
  | sum _ _ _ ihl ihr => exact List.forall_mem_append.mpr ⟨ihl, ihr⟩

end Grammar

namespace Expr

theorem printable_of_parse {source : String} {e : Expr} (h : parse source = .ok e)
    (hfinite : ∀ v ∈ e.literals, ∀ negative, Reading.ofFloat v ≠ .infinite negative) :
    e.Printable := by
  intro v hv
  obtain ⟨n, rfl⟩ := (derives_of_parse h).exists_numeral v hv
  have hreading := ofFloat_nearestFloat n.denotes
  split at hreading
  · exact ⟨_, hreading⟩
  · exact absurd hreading (hfinite _ hv false)

/-- A printable tree of at most `maxNesting + 1` levels is parsed back from its text with the same
literals, bit for bit, and a higher one is refused as nested too deep. Parsed trees without an
infinite literal are printable. -/
theorem parse_text :
    (∀ e : Expr, e.Printable →
      (e.depth ≤ maxNesting + 1 →
        parse e.text = .ok e ∧ FourFunction.evaluate e.text = .ok e.evaluate) ∧
      (maxNesting + 1 < e.depth →
        ∃ offset, parse e.text = .error (.grammar (.nestingTooDeep maxNesting offset)))) ∧
    ∀ source e, parse source = .ok e →
      (∀ v ∈ e.literals, ∀ negative, Reading.ofFloat v ≠ .infinite negative) → e.Printable := by
  refine ⟨?_, fun source e => printable_of_parse⟩
  intro e he
  -- Some lexemes split the text and derive the tree with any number of groups that is large enough,
  -- so they are the ones read, whether or not that number is allowed.
  obtain ⟨ls, hls, hsplits⟩ := he.exists_spelled
  rw [← text_eq_render] at hsplits
  have hderives := hls.derives e.height (Nat.le_succ _)
  have hlexemes := eq_lexemes_of_splits hsplits hderives
  rw [depth_eq_height]
  constructor
  · intro hheight
    have hparse : parse e.text = .ok e :=
      parse_of_derives (hlexemes ▸ (hls.derives maxNesting hheight).toExpression) le_rfl
    refine ⟨hparse, ?_⟩
    rw [FourFunction.evaluate, hparse]
    rfl
  · intro hheight
    obtain ⟨before, after, rfl, hbefore⟩ := hls.exists_leftParen 0 (Nat.zero_le _) (by omega)
    obtain ⟨offset, hoffset⟩ := exists_verdictOf_eq_nestingTooDeep hlexemes.symm hbefore
    exact ⟨offset, parse_eq_error_iff.mpr hoffset⟩

/-- One and a half divided by four. -/
theorem parse_text_of_quotient :
    ∃ e : Expr, e.Printable ∧ e.depth = 2 ∧ parse e.text = .ok e ∧
      FourFunction.evaluate e.text = .ok e.evaluate := by
  have hleft : Reading.ofFloat (Float.ofBits 0x3ff8000000000000) = .finite false (mkRat 3 2) := by
    decide +kernel
  have hright : Reading.ofFloat (Float.ofBits 0x4010000000000000) = .finite false 4 := by
    decide +kernel
  have hprintable : Printable (.binary .div (.literal (Float.ofBits 0x3ff8000000000000))
      (.literal (Float.ofBits 0x4010000000000000))) := by
    intro v hv
    rcases List.mem_pair.mp hv with rfl | rfl
    · exact ⟨_, hleft⟩
    · exact ⟨_, hright⟩
  refine ⟨_, hprintable, by simp [depth_eq_height, height], ?_⟩
  refine (parse_text.1 _ hprintable).1 ?_
  rw [depth_eq_height]
  decide

end Expr

end FourFunction
