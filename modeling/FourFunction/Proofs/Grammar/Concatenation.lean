import FourFunction.Proofs.Grammar.Exactness
import FourFunction.Proofs.Grammar.Outside
import FourFunction.Text.Parens

/-! Texts put together from others with operators and parentheses. The tree of the whole is made of
the trees of the parts, as far as the operators outside of all parentheses allow it. -/

namespace FourFunction

open Text Grammar

/-! ## Parentheses in a text -/

theorem Lexeme.Proper.opens_eq {l : Lexeme} (h : l.Proper) : l.opens = depth l.text := by
  cases l with
  | numeral n =>
      refine (depth_eq_zero ?_).symm
      intro c hc
      rcases Numeral.Proper.isDigit_or_point h c hc with hdigit | rfl
      · constructor <;> rintro rfl <;> simp at hdigit
      · decide
  | symbol s => rcases s with op | _ | _ <;> simp [opens, text, Symbol.toChar]
  | unmatched c => exact h.elim

/-- Lexemes open as many groups as there are parentheses in their text. -/
theorem Splits.opened_eq {ls : List Lexeme} {cs : List Char} (h : Splits ls cs) :
    opened ls = depth cs := by
  have hblanks : ∀ gap : List Char, gap ⊆ blanks → depth gap = 0 := by
    intro gap hgap
    refine depth_eq_zero ?_
    intro c hc
    constructor <;> rintro rfl <;> exact absurd (hgap hc) (by decide)
  induction h with
  | blank hgap => exact (hblanks _ hgap).symm
  | lexeme hgap hl _ ih => simp [opened, hblanks _ hgap, hl.opens_eq, ih]

/-- A symbol inside of a number of groups stands in the text inside of as many parentheses. -/
theorem Splits.exists_depth {ls : List Lexeme} {cs : List Char} (h : Splits ls cs) {k : Int}
    {s : Symbol} (hs : (k, .symbol s) ∈ nested 0 ls) :
    ∃ before after, before ++ s.toChar :: after = cs ∧ depth before = k := by
  obtain ⟨ms, ns, rfl, rfl⟩ := exists_of_mem_nested hs
  obtain ⟨before, after, rfl, hbefore, -⟩ := h.exists_text
  exact ⟨before, after, rfl, by rw [Int.zero_add, hbefore.opened_eq]⟩

theorem Splits.chainless {ls : List Lexeme} {cs : List Char} {level : Level} (h : Splits ls cs)
    (hfree : OuterFree level cs) : Chainless level ls := by
  intro op hop
  obtain ⟨before, after, hcs, hdepth⟩ := h.exists_depth hop
  exact hfree before op after hcs hdepth

namespace Grammar

theorem Derives.of_nestsAtMost {groups fewer : Nat} {category : Category} {ls : List Lexeme}
    {e : Expr} {cs : List Char} (h : Derives groups category ls e) (hs : Splits ls cs)
    (hn : NestsAtMost fewer cs) : Derives fewer category ls e := by
  refine h.of_mem_nested fewer 0 ?_
  rintro ⟨k, l⟩ hmem rfl
  obtain ⟨before, after, rfl, rfl⟩ := hs.exists_depth hmem
  have hopen := hn (before ++ ['(']) ⟨after, by simp [Symbol.toChar]⟩
  rw [depth_append, depth_leftParen, depth_nil] at hopen
  omega

/-! ## Texts put together -/

/-- A text in parentheses. -/
def grouped (a : String) : String :=
  "(" ++ a ++ ")"

/-- Two texts with an operator between them. -/
def joined (a : String) (op : Operator) (b : String) : String :=
  a ++ op.text ++ b

theorem toList_joined (a : String) (op : Operator) (b : String) :
    (joined a op b).toList = a.toList ++ op.toChar :: b.toList := by
  simp [joined, Operator.text]

theorem splits_grouped {a : String} {ls : List Lexeme} (h : Splits ls a.toList) :
    Splits (.symbol .leftParen :: ls ++ [.symbol .rightParen]) (grouped a).toList := by
  have hgroup := ((splits_symbol .leftParen).append h).append (splits_symbol .rightParen)
  simpa [grouped, Symbol.toChar] using hgroup

theorem splits_joined {a b : String} {ls ms : List Lexeme} (hl : Splits ls a.toList)
    (hm : Splits ms b.toList) (op : Operator) :
    Splits (ls ++ .symbol (.operator op) :: ms) (joined a op b).toList := by
  rw [toList_joined]
  exact hl.append ((splits_symbol (.operator op)).append hm)

variable {a b : String} {e f : Expr}

/-- A parsed text in parentheses is a factor, if there is a group left for them. -/
theorem derives_grouped (h : parse a = .ok e) (hn : NestsAtMost 255 a.toList) :
    Derives maxNesting .factor
      (.symbol .leftParen :: (lexemes a).map Placed.lexeme ++ [.symbol .rightParen]) e :=
  .group ((derives_of_parse h).of_nestsAtMost (splits_of_parse h) hn)

theorem derives_term_of_outerFree (h : parse a = .ok e) (hfree : OuterFree .sum a.toList) :
    Derives maxNesting .term ((lexemes a).map Placed.lexeme) e := by
  have hterm : Derives maxNesting (.ofOperand .sum) _ e :=
    (derives_of_parse h).operand_of_chainless ((splits_of_parse h).chainless hfree)
  exact hterm

/-- A parsed text is one factor exactly if no operator stands outside of its parentheses. -/
theorem derives_factor_iff (h : parse a = .ok e) :
    Derives maxNesting .factor ((lexemes a).map Placed.lexeme) e ↔
      ∀ level, OuterFree level a.toList := by
  have hs := splits_of_parse h
  constructor
  · rintro hfactor level before op after hsource hdepth -
    rw [← hsource] at hs
    obtain ⟨ms, ns, hlexemes, hms, -⟩ := hs.exists_symbol (s := .operator op)
    rw [← hlexemes] at hfactor
    exact hfactor.admits 0 op (mem_nested_operator (hms.opened_eq.trans hdepth) 0 op ns)
  · intro hfree
    have hterm : Derives maxNesting (.ofChain .product) _ e :=
      derives_term_of_outerFree h (hfree .sum)
    have hfactor : Derives maxNesting (.ofOperand .product) _ e :=
      hterm.operand_of_chainless (hs.chainless (hfree .product))
    exact hfactor

/-- The last sum operator outside of all parentheses divides a parsed text into an expression and a
term. -/
theorem exists_of_lastSum {p q : String} {sign : Operator} (h : parse (joined p sign q) = .ok e)
    (hsign : sign = .add ∨ sign = .sub) (hp : depth p.toList = 0) (hq : OuterFree .sum q.toList) :
    ∃ ls ms left right, Splits ls p.toList ∧ Splits ms q.toList ∧ e = .binary sign left right ∧
      Derives maxNesting .expression ls left ∧ Derives maxNesting .term ms right := by
  have hs := splits_of_parse h
  rw [toList_joined] at hs
  obtain ⟨ls, ms, hlexemes, hsp, hsq⟩ := hs.exists_symbol (s := .operator sign)
  have hchain : Derives maxNesting (.ofChain .sum) _ e := hlexemes ▸ derives_of_parse h
  obtain ⟨left, right, he, hleft, hright⟩ :=
    hchain.exists_of_last (Level.mem_operators_sum.mpr hsign) (hsp.opened_eq.trans hp)
      (hsq.chainless hq)
  exact ⟨ls, ms, left, right, hsp, hsq, he, hleft, hright⟩

/-- What becomes of two texts with these trees when they are put together. -/
structure Concatenates (a b : String) (e f : Expr) : Prop where
  group : NestsAtMost 255 a.toList → parse (grouped a) = .ok e
  groups : NestsAtMost 255 a.toList → NestsAtMost 255 b.toList → ∀ op : Operator,
    parse (joined (grouped a) op (grouped b)) = .ok (.binary op e f) ∧
      evaluate (joined (grouped a) op (grouped b)) = .ok (op.apply e.evaluate f.evaluate)
  sum : OuterFree .sum b.toList → ∀ op : Operator, op = .add ∨ op = .sub →
    parse (joined a op b) = .ok (.binary op e f)
  product : OuterFree .sum a.toList →
    Derives maxNesting .factor ((lexemes b).map Placed.lexeme) f →
      ∀ op : Operator, op = .mul ∨ op = .div → parse (joined a op b) = .ok (.binary op e f)
  lastSum : ∀ (p q : String) (sign : Operator), joined p sign q = a → sign = .add ∨ sign = .sub →
    depth p.toList = 0 → OuterFree .sum q.toList →
      Derives maxNesting .factor ((lexemes b).map Placed.lexeme) f →
        ∃ left right, parse p = .ok left ∧ parse q = .ok right ∧ e = .binary sign left right ∧
          ∀ op : Operator, op = .mul ∨ op = .div →
            parse (joined q op b) = .ok (.binary op right f) ∧
              parse (joined a op b) = .ok (.binary sign left (.binary op right f))

/-- The trees of two parsed texts are the parts of the trees of texts put together from them. -/
theorem parse_concatenates (ha : parse a = .ok e) (hb : parse b = .ok f) :
    Concatenates a b e f := by
  have hsa := splits_of_parse ha
  have hsb := splits_of_parse hb
  refine ⟨?_, ?_, ?_, ?_, ?_⟩
  · intro hna
    exact parse_of_splits (splits_grouped hsa) (derives_grouped ha hna).toExpression le_rfl
  · intro hna hnb op
    have hparse : parse (joined (grouped a) op (grouped b)) = .ok (.binary op e f) :=
      parse_of_splits (splits_joined (splits_grouped hsa) (splits_grouped hsb) op)
        (derives_binary op (derives_grouped ha hna) (derives_grouped hb hnb)) le_rfl
    refine ⟨hparse, ?_⟩
    rw [evaluate, hparse, ← Expr.evaluate_binary]
    rfl
  · intro hfree op hop
    exact parse_of_splits (splits_joined hsa hsb op)
      (.sum hop (derives_of_parse ha) (derives_term_of_outerFree hb hfree)) le_rfl
  · intro hfree hfactor op hop
    exact parse_of_splits (splits_joined hsa hsb op)
      (.term (.product hop (derives_term_of_outerFree ha hfree) hfactor)) le_rfl
  · rintro p q sign rfl hsign hp hq hfactor
    obtain ⟨ls, ms, left, right, hsp, hsq, he, hleft, hright⟩ := exists_of_lastSum ha hsign hp hq
    refine ⟨left, right, parse_of_splits hsp hleft le_rfl,
      parse_of_splits hsq hright.toExpression le_rfl, he, ?_⟩
    intro op hop
    have hproduct := Derives.product hop hright hfactor
    refine ⟨parse_of_splits (splits_joined hsq hsb op) (.term hproduct) le_rfl, ?_⟩
    have hjoin : joined (joined p sign q) op b = joined p sign (joined q op b) := by
      simp [joined, String.append_assoc]
    rw [hjoin]
    exact parse_of_splits (splits_joined hsp (splits_joined hsq hsb op) sign)
      (.sum hsign hleft hproduct) le_rfl

/-- The quotient takes the second operand of a difference only. -/
theorem parse_concatenates_difference :
    ∃ e f left right, parse "8 - 2*3" = .ok e ∧ parse "(4/2)" = .ok f ∧
      parse (joined (grouped "8 - 2*3") .mul (grouped "(4/2)")) = .ok (.binary .mul e f) ∧
      parse (joined "8 - 2*3" .add "(4/2)") = .ok (.binary .add e f) ∧
      parse (joined "8 - 2*3" .div "(4/2)") = .ok (.binary .sub left (.binary .div right f)) := by
  obtain ⟨e, he⟩ := exists_parse_of_verdictOf (show verdictOf "8 - 2*3" = .ok () by decide +kernel)
  obtain ⟨f, hf⟩ := exists_parse_of_verdictOf (show verdictOf "(4/2)" = .ok () by decide +kernel)
  have hfree : ∀ level, OuterFree level "(4/2)".toList := by
    intro level
    cases level <;> decide +kernel
  have hall := parse_concatenates he hf
  obtain ⟨left, right, -, -, -, hlast⟩ := hall.lastSum "8 " " 2*3" .sub (by decide +kernel)
    (.inr rfl) (by decide +kernel) (by decide +kernel) ((derives_factor_iff hf).mpr hfree)
  exact ⟨e, f, left, right, he, hf, (hall.groups (by decide +kernel) (by decide +kernel) .mul).1,
    hall.sum (hfree .sum) .add (.inl rfl), (hlast .div (.inr rfl)).2⟩

end Grammar

end FourFunction
