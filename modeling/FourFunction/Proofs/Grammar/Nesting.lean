import FourFunction.Proofs.Grammar.Unlimited
import Mathlib.Data.List.Chain
import Mathlib.Logic.Relation
import Mathlib.Order.Bounds.Basic

/-! The limit on groups. A rule with a limit does what it would do without one, until it comes to
the first parenthesis that opens a group too many. Its calls of other rules are never deeper than
the limit allows. -/

namespace FourFunction.Grammar

variable {level : Level} {operand : Rule}

/-! ## Offsets -/

/-- The offset of the cursor never goes down. -/
def Rule.Forward (r : Rule) : Prop :=
  ∀ s, s.cursor.offset ≤ (r.run s).scanner.cursor.offset

theorem unlimitedFactor_forward : unlimitedFactor.Forward := by
  intro s
  obtain ⟨ps, hps, -⟩ := factorWithin_sound s.unread s
  exact hps.offset_le

theorem Extends.offset_le (ho : operand.Forward) {left : Expr} {s : Scanner}
    {events : Array Event} {o : Outcome} (h : Extends level operand left s events o) :
    s.cursor.offset ≤ o.scanner.cursor.offset := by
  induction h with
  | @next left right s events op o hop he _ ih =>
      exact (s.offset_le_next.trans (ho s.next.2)).trans ih
  | @failed left s events op cause hop he => exact s.offset_le_next.trans (ho s.next.2)
  | last _ => exact le_rfl

theorem chain_offset_le (ho : operand.Forward) (s : Scanner) :
    (operand.run s).scanner.cursor.offset ≤
      ((chain level operand).run s).scanner.cursor.offset := by
  rcases chain_cases level operand s with ⟨left, -, hextends⟩ | ⟨cause, -, hrun⟩
  · exact hextends.offset_le ho
  · rw [hrun]

theorem chain_forward (level : Level) (ho : operand.Forward) : (chain level operand).Forward :=
  fun s => (ho s).trans (chain_offset_le ho s)

/-- What an operand passes over lies within what its chain passes over. -/
theorem Extends.operand_offset_le (ho : operand.Forward) {left : Expr} {s : Scanner}
    {events : Array Event} {o : Outcome} (h : Extends level operand left s events o) :
    ∀ t, Follows level operand s t → s.cursor.offset ≤ t.cursor.offset ∧
      (operand.run t).scanner.cursor.offset ≤ o.scanner.cursor.offset := by
  induction h with
  | @next left right s events op o hop he hrest ih =>
      intro t ht
      obtain ⟨op', -, ht⟩ := ht
      rcases operands_iff.mp ht with rfl | ⟨e, -, hfollows⟩
      · exact ⟨s.offset_le_next, hrest.offset_le ho⟩
      · obtain ⟨hstart, hstop⟩ := ih t hfollows
        exact ⟨(s.offset_le_next.trans (ho s.next.2)).trans hstart, hstop⟩
  | @failed left s events op cause hop he =>
      intro t ht
      obtain ⟨op', -, ht⟩ := ht
      rcases operands_iff.mp ht with rfl | ⟨e, hok, -⟩
      · exact ⟨s.offset_le_next, le_rfl⟩
      · simp [he] at hok
  | last hop =>
      intro t ht
      obtain ⟨op, hop', -⟩ := ht
      simp [hop] at hop'

theorem Operands.offset_le (ho : operand.Forward) {s t : Scanner}
    (h : Operands level operand s t) :
    s.cursor.offset ≤ t.cursor.offset ∧
      (operand.run t).scanner.cursor.offset ≤
        ((chain level operand).run s).scanner.cursor.offset := by
  rcases operands_iff.mp h with rfl | ⟨e, he, hfollows⟩
  · exact ⟨le_rfl, chain_offset_le ho t⟩
  · rcases chain_cases level operand s with ⟨left, -, hextends⟩ | ⟨cause, hc, -⟩
    · obtain ⟨hstart, hstop⟩ := hextends.operand_offset_le ho t hfollows
      exact ⟨(ho s).trans hstart, hstop⟩
    · simp [he] at hc

/-! ## Places at which groups are opened -/

/-- The offsets lie within what the rule passes over. -/
def Spans (opens : Scanner → Nat → Prop) (r : Rule) : Prop :=
  ∀ s offset, opens s offset →
    s.cursor.offset ≤ offset ∧ offset ≤ (r.run s).scanner.cursor.offset

/-- With a limit the rule does what it would do without one, or it fails at the first of the offsets
at which a group too many is opened. -/
def Tracks (opens : Scanner → Nat → Prop) (limited free : Rule) : Prop :=
  ∀ s, (limited.run s = free.run s ∧ ∀ offset, ¬ opens s offset) ∨
    ∃ offset, IsLeast {o | opens s o} offset ∧
      (limited.run s).result = .error (.grammar (.nestingTooDeep maxNesting offset))

/-- The offsets that belong to one of the scanners reached. -/
def Along (reaches : Scanner → Scanner → Prop) (opens : Scanner → Nat → Prop) (s : Scanner)
    (offset : Nat) : Prop :=
  ∃ t, reaches s t ∧ opens t offset

section Chains

variable {opens : Scanner → Nat → Prop} {limited : Rule}

theorem along_operands_iff {s : Scanner} {offset : Nat} :
    Along (Operands level operand) opens s offset ↔
      opens s offset ∨ ∃ e, (operand.run s).result = .ok e ∧
        Along (Follows level operand) opens (operand.run s).scanner offset := by
  constructor
  · intro h
    obtain ⟨t, ht, hopens⟩ := h
    rcases operands_iff.mp ht with rfl | ⟨e, he, hfollows⟩
    · exact .inl hopens
    · exact .inr ⟨e, he, t, hfollows, hopens⟩
  · rintro (hopens | ⟨e, he, t, hfollows, hopens⟩)
    · exact ⟨s, .first s, hopens⟩
    · exact ⟨t, operands_iff.mpr (.inr ⟨e, he, hfollows⟩), hopens⟩

theorem along_follows_iff {s : Scanner} {op : Operator} {offset : Nat}
    (hop : s.next.1.operatorOf? level = some op) :
    Along (Follows level operand) opens s offset ↔
      Along (Operands level operand) opens s.next.2 offset := by
  constructor
  · intro h
    obtain ⟨t, ⟨op', -, ht⟩, hopens⟩ := h
    exact ⟨t, ht, hopens⟩
  · intro h
    obtain ⟨t, ht, hopens⟩ := h
    exact ⟨t, ⟨op, hop, ht⟩, hopens⟩

/-- After an operand without offsets of its own come those of the rest of the chain. -/
theorem along_operands_iff_of_none {s : Scanner} {e : Expr} (he : (operand.run s).result = .ok e)
    (hn : ∀ offset, ¬ opens s offset) (offset : Nat) :
    Along (Operands level operand) opens s offset ↔
      Along (Follows level operand) opens (operand.run s).scanner offset := by
  rw [along_operands_iff]
  simp [hn offset, he]

/-- The first offset of an operand comes before those of the rest of the chain. -/
theorem isLeast_along_operands (hs : Spans opens operand) (ho : operand.Forward) {s : Scanner}
    {offset : Nat} (h : IsLeast {x | opens s x} offset) :
    IsLeast {x | Along (Operands level operand) opens s x} offset := by
  refine ⟨along_operands_iff.mpr (.inl h.1), ?_⟩
  intro x hx
  rcases along_operands_iff.mp hx with hopens | ⟨e, he, t, hfollows, hopens⟩
  · exact h.2 hopens
  · have hstop := (hs s offset h.1).2
    have hstart := (hs t x hopens).1
    obtain ⟨op, -, ht⟩ := hfollows
    exact hstop.trans (((Scanner.offset_le_next _).trans (ht.offset_le ho).1).trans hstart)

theorem Extends.tracks (ht : Tracks opens limited operand) (hs : Spans opens operand)
    (ho : operand.Forward) {left : Expr} {s : Scanner} {events : Array Event} {o : Outcome}
    (h : Extends level operand left s events o) :
    (extend level limited left s events = o ∧
      ∀ offset, ¬ Along (Follows level operand) opens s offset) ∨
    ∃ offset, IsLeast {x | Along (Follows level operand) opens s x} offset ∧
      (extend level limited left s events).result =
        .error (.grammar (.nestingTooDeep maxNesting offset)) := by
  induction h with
  | @next left right s events op o hop he _ ih =>
      simp only [along_follows_iff hop]
      rcases ht s.next.2 with ⟨hrun, hnone⟩ | ⟨offset, hleast, hdeep⟩
      · simp only [along_operands_iff_of_none he hnone]
        rw [extend_of_ok hop (hrun ▸ he), hrun]
        exact ih
      · rw [extend_of_error hop hdeep]
        exact .inr ⟨offset, isLeast_along_operands hs ho hleast, rfl⟩
  | @failed left s events op cause hop he =>
      simp only [along_follows_iff hop]
      rcases ht s.next.2 with ⟨hrun, hnone⟩ | ⟨offset, hleast, hdeep⟩
      · rw [extend_of_error hop (hrun ▸ he), hrun]
        refine .inl ⟨rfl, ?_⟩
        intro offset hopens
        rcases along_operands_iff.mp hopens with hfirst | ⟨e, hok, -⟩
        · exact hnone offset hfirst
        · simp [he] at hok
      · rw [extend_of_error hop hdeep]
        exact .inr ⟨offset, isLeast_along_operands hs ho hleast, rfl⟩
  | last hop =>
      refine .inl ⟨extend_of_none hop, ?_⟩
      intro offset hopens
      obtain ⟨t, ⟨op, hop', -⟩, -⟩ := hopens
      simp [hop] at hop'

theorem chain_tracks (level : Level) (ht : Tracks opens limited operand)
    (hs : Spans opens operand) (ho : operand.Forward) :
    Tracks (Along (Operands level operand) opens) (chain level limited) (chain level operand) := by
  intro s
  rcases ht s with ⟨hrun, hnone⟩ | ⟨offset, hleast, hdeep⟩
  · rcases chain_cases level operand s with ⟨left, hl, hextends⟩ | ⟨cause, hc, hchain⟩
    · simp only [along_operands_iff_of_none hl hnone]
      rw [chain_run_of_ok (hrun ▸ hl), hrun]
      exact hextends.tracks ht hs ho
    · rw [chain_run_of_error (hrun ▸ hc), hchain, hrun]
      refine .inl ⟨rfl, ?_⟩
      intro offset hopens
      rcases along_operands_iff.mp hopens with hfirst | ⟨e, hok, -⟩
      · exact hnone offset hfirst
      · simp [hc] at hok
  · rw [chain_run_of_error hdeep]
    exact .inr ⟨offset, isLeast_along_operands hs ho hleast, hdeep⟩

theorem chain_spans (hs : Spans opens operand) (ho : operand.Forward) :
    Spans (Along (Operands level operand) opens) (chain level operand) := by
  intro s offset hopens
  obtain ⟨t, ht, hopens⟩ := hopens
  obtain ⟨hstart, hstop⟩ := ht.offset_le ho
  obtain ⟨hle, hge⟩ := hs t offset hopens
  exact ⟨hstart.trans hle, hge.trans hstop⟩

end Chains

/-! ## Frames -/

/-- Carried out without a limit, the frame comes to an opening parenthesis at the offset where
`depth` groups are open, and opens one more. -/
def Frame.Opens (f : Frame) (depth offset : Nat) : Prop :=
  ∃ t, Relation.ReflTransGen (Frame.Calls none) f ⟨.factor, depth, t⟩ ∧
    t.next.1 = .symbol .leftParen ∧ t.cursor.skipBlanks.offset = offset

theorem Frame.Calls.depth_le {limit : Option Nat} {f g : Frame} (h : Frame.Calls limit f g) :
    f.depth ≤ g.depth := by
  cases h with
  | term => exact le_rfl
  | factor => exact le_rfl
  | group => exact Nat.le_succ _

theorem Frame.depth_le_of_reaches {limit : Option Nat} {f g : Frame}
    (h : Relation.ReflTransGen (Frame.Calls limit) f g) : f.depth ≤ g.depth := by
  induction h with
  | refl => exact le_rfl
  | tail _ hcall ih => exact ih.trans hcall.depth_le

theorem opens_expression_iff {n m offset : Nat} {s : Scanner} :
    Frame.Opens ⟨.expression, n, s⟩ m offset ↔
      Along (Operands .sum (ruleOver unlimitedFactor .term))
        (fun t => Frame.Opens ⟨.term, n, t⟩ m) s offset := by
  constructor
  · intro h
    obtain ⟨t, hpath, hparen, hoffset⟩ := h
    rcases hpath.cases_head with heq | ⟨f, hcall, hrest⟩
    · simp at heq
    · cases hcall with
      | term hu => exact ⟨_, hu, t, hrest, hparen, hoffset⟩
  · intro h
    obtain ⟨u, hu, t, hpath, hparen, hoffset⟩ := h
    exact ⟨t, .head (.term hu) hpath, hparen, hoffset⟩

theorem opens_term_iff {n m offset : Nat} {s : Scanner} :
    Frame.Opens ⟨.term, n, s⟩ m offset ↔
      Along (Operands .product (ruleOver unlimitedFactor .factor))
        (fun t => Frame.Opens ⟨.factor, n, t⟩ m) s offset := by
  constructor
  · intro h
    obtain ⟨t, hpath, hparen, hoffset⟩ := h
    rcases hpath.cases_head with heq | ⟨f, hcall, hrest⟩
    · simp at heq
    · cases hcall with
      | factor hu => exact ⟨_, hu, t, hrest, hparen, hoffset⟩
  · intro h
    obtain ⟨u, hu, t, hpath, hparen, hoffset⟩ := h
    exact ⟨t, .head (.factor hu) hpath, hparen, hoffset⟩

theorem opens_factor_self_iff {n offset : Nat} {s : Scanner} :
    Frame.Opens ⟨.factor, n, s⟩ n offset ↔
      s.next.1 = .symbol .leftParen ∧ s.cursor.skipBlanks.offset = offset := by
  constructor
  · intro h
    obtain ⟨t, hpath, hparen, hoffset⟩ := h
    rcases hpath.cases_head with heq | ⟨f, hcall, hrest⟩
    · obtain rfl : s = t := by simpa using heq
      exact ⟨hparen, hoffset⟩
    · cases hcall with
      | group =>
          have : n + 1 ≤ n := Frame.depth_le_of_reaches hrest
          omega
  · intro h
    exact ⟨s, .refl, h⟩

theorem opens_factor_iff {n m offset : Nat} {s : Scanner} (hlt : n < m) :
    Frame.Opens ⟨.factor, n, s⟩ m offset ↔
      s.next.1 = .symbol .leftParen ∧ Frame.Opens ⟨.expression, n + 1, s.next.2⟩ m offset := by
  constructor
  · intro h
    obtain ⟨t, hpath, hparen, hoffset⟩ := h
    rcases hpath.cases_head with heq | ⟨f, hcall, hrest⟩
    · simp only [Frame.mk.injEq, true_and] at heq
      omega
    · cases hcall with
      | group hopen => exact ⟨hopen, t, hrest, hparen, hoffset⟩
  · intro h
    obtain ⟨hopen, t, hpath, hparen, hoffset⟩ := h
    exact ⟨t, .head (.group hopen (by simp)) hpath, hparen, hoffset⟩

/-- Where many groups are open there have been fewer before. -/
theorem Frame.Opens.exists_of_le {f : Frame} {m m' offset : Nat} (h : f.Opens m' offset)
    (hf : f.depth ≤ m) (hm : m ≤ m') : ∃ offset', f.Opens m offset' := by
  obtain ⟨t, hpath, hparen, -⟩ := h
  induction hpath using Relation.ReflTransGen.head_induction_on with
  | refl =>
      obtain rfl : m = m' := le_antisymm hm hf
      exact ⟨_, t, .refl, hparen, rfl⟩
  | @head f g hcall hrest ih =>
      by_cases hg : g.depth ≤ m
      · obtain ⟨offset', u, hu, hopen, hoffset⟩ := ih hg
        exact ⟨offset', u, .head hcall hu, hopen, hoffset⟩
      · -- The call that goes deeper than `m` opens the group that is looked for.
        cases hcall with
        | term => exact absurd hf hg
        | factor => exact absurd hf hg
        | @group depth s hopen =>
            obtain rfl : depth = m := by
              simp only at hf hg
              omega
            exact ⟨_, s, .refl, hopen, rfl⟩

/-! ## Rules with a limit -/

theorem group_offset_le (expression : Rule) (s : Scanner) :
    (expression.run s).scanner.cursor.offset ≤
      (group (some expression) s).scanner.cursor.offset := by
  rcases group_cases expression s with ⟨cause, -, hrun⟩ | ⟨e, -, -, hrun⟩ | ⟨e, -, -, hrun⟩
  · rw [hrun]
  · rw [hrun]
    exact Scanner.offset_le_next _
  · rw [hrun]
    exact Scanner.offset_le_next _

theorem ruleOver_unlimited_forward (category : Category) :
    (ruleOver unlimitedFactor category).Forward := by
  cases category with
  | expression => exact chain_forward .sum (chain_forward .product unlimitedFactor_forward)
  | term => exact chain_forward .product unlimitedFactor_forward
  | factor => exact unlimitedFactor_forward

/-- What an unlimited factor passes over after its parenthesis is at least the expression within. -/
theorem expression_offset_le_unlimitedFactor {s : Scanner}
    (h : s.next.1 = .symbol .leftParen) :
    ((expressionOver unlimitedFactor).run s.next.2).scanner.cursor.offset ≤
      (unlimitedFactor.run s).scanner.cursor.offset := by
  rw [unlimitedFactor_eq, factorOver_run_of_leftParen h, ← unlimitedFactor_eq]
  exact group_offset_le _ _

theorem expression_spans {n m : Nat}
    (h : Spans (fun s => Frame.Opens ⟨.factor, n, s⟩ m) unlimitedFactor) :
    Spans (fun s => Frame.Opens ⟨.expression, n, s⟩ m) (ruleOver unlimitedFactor .expression) := by
  have hterm : Spans (fun s => Frame.Opens ⟨.term, n, s⟩ m) (ruleOver unlimitedFactor .term) := by
    intro s offset hopens
    exact chain_spans h unlimitedFactor_forward s offset (opens_term_iff.mp hopens)
  intro s offset hopens
  exact chain_spans hterm (ruleOver_unlimited_forward .term) s offset
    (opens_expression_iff.mp hopens)

/-- The places at which an unlimited factor opens groups lie within what it passes over. -/
theorem factor_spans (k : Nat) :
    ∀ n, Spans (fun s => Frame.Opens ⟨.factor, n, s⟩ (n + k)) unlimitedFactor := by
  induction k with
  | zero =>
      intro n s offset hopens
      obtain ⟨hparen, rfl⟩ := opens_factor_self_iff.mp hopens
      refine ⟨s.cursor.offset_le_skipBlanks, ?_⟩
      calc
        s.cursor.skipBlanks.offset ≤ s.next.2.cursor.offset :=
          (Scanner.skipBlanks_offset_lt_next (by simp [hparen])).le
        _ ≤ ((expressionOver unlimitedFactor).run s.next.2).scanner.cursor.offset :=
          ruleOver_unlimited_forward .expression s.next.2
        _ ≤ (unlimitedFactor.run s).scanner.cursor.offset :=
          expression_offset_le_unlimitedFactor hparen
  | succ k ih =>
      intro n s offset hopens
      obtain ⟨hparen, hexpression⟩ := (opens_factor_iff (by omega)).mp hopens
      rw [← Nat.add_assoc, Nat.add_right_comm] at hexpression
      obtain ⟨hstart, hstop⟩ := expression_spans (ih (n + 1)) s.next.2 offset hexpression
      exact ⟨s.offset_le_next.trans hstart,
        hstop.trans (expression_offset_le_unlimitedFactor hparen)⟩

theorem term_tracks {k n : Nat}
    (h : Tracks (fun s => Frame.Opens ⟨.factor, n, s⟩ (n + k)) (factorWithin k) unlimitedFactor) :
    Tracks (fun s => Frame.Opens ⟨.term, n, s⟩ (n + k)) (ruleOver (factorWithin k) .term)
      (ruleOver unlimitedFactor .term) := by
  have hchain := chain_tracks .product h (factor_spans k n) unlimitedFactor_forward
  intro s
  simp only [opens_term_iff]
  exact hchain s

theorem expression_tracks {k n : Nat}
    (h : Tracks (fun s => Frame.Opens ⟨.factor, n, s⟩ (n + k)) (factorWithin k) unlimitedFactor) :
    Tracks (fun s => Frame.Opens ⟨.expression, n, s⟩ (n + k))
      (ruleOver (factorWithin k) .expression) (ruleOver unlimitedFactor .expression) := by
  have hspans : Spans (fun s => Frame.Opens ⟨.term, n, s⟩ (n + k))
      (ruleOver unlimitedFactor .term) := by
    intro s offset hopens
    exact chain_spans (factor_spans k n) unlimitedFactor_forward s offset
      (opens_term_iff.mp hopens)
  have hchain := chain_tracks .sum (term_tracks h) hspans
    (ruleOver_unlimited_forward .term)
  intro s
  simp only [opens_expression_iff]
  exact hchain s

/-- Factors with `k` groups left do what unlimited factors do until the group after those is
opened. -/
theorem factor_tracks (k : Nat) :
    ∀ n, Tracks (fun s => Frame.Opens ⟨.factor, n, s⟩ (n + k)) (factorWithin k)
      unlimitedFactor := by
  induction k with
  | zero =>
      intro n s
      by_cases hparen : s.next.1 = .symbol .leftParen
      · refine .inr ⟨s.cursor.skipBlanks.offset, ⟨?_, ?_⟩, ?_⟩
        · exact opens_factor_self_iff.mpr ⟨hparen, rfl⟩
        · intro offset hopens
          exact (opens_factor_self_iff.mp hopens).2.le
        · rw [factorWithin, factorOver_run_of_leftParen hparen]
          simp [Outcome.after, group]
      · refine .inl ⟨?_, ?_⟩
        · rw [unlimitedFactor_eq]
          exact factorOver_run_of_ne hparen
        · intro offset hopens
          exact hparen (opens_factor_self_iff.mp hopens).1
  | succ k ih =>
      intro n s
      have hopens : ∀ offset, Frame.Opens ⟨.factor, n, s⟩ (n + (k + 1)) offset ↔
          s.next.1 = .symbol .leftParen ∧
            Frame.Opens ⟨.expression, n + 1, s.next.2⟩ (n + 1 + k) offset := by
        intro offset
        rw [opens_factor_iff (by omega), Nat.add_right_comm n 1 k, Nat.add_assoc]
      simp only [hopens]
      by_cases hparen : s.next.1 = .symbol .leftParen
      · simp only [hparen, true_and]
        rw [unlimitedFactor_eq, factorWithin, factorOver_run_of_leftParen hparen,
          factorOver_run_of_leftParen hparen]
        rcases expression_tracks (ih (n + 1)) s.next.2 with ⟨hrun, hnone⟩ | ⟨offset, hleast, hdeep⟩
        · exact .inl ⟨congrArg (Outcome.after s.nextEvents) (group_congr hrun), hnone⟩
        · refine .inr ⟨offset, hleast, ?_⟩
          rcases group_cases (expressionOver (factorWithin k)) s.next.2 with
            ⟨cause, hc, hgroup⟩ | ⟨e, he, -⟩ | ⟨e, he, -⟩
          · rw [hgroup]
            exact hc.symm.trans hdeep
          · exact absurd (he.symm.trans hdeep) (by simp)
          · exact absurd (he.symm.trans hdeep) (by simp)
      · refine .inl ⟨?_, ?_⟩
        · rw [unlimitedFactor_eq, factorWithin]
          exact factorOver_run_of_ne hparen
        · intro offset h
          exact hparen h.1

theorem ruleOver_tracks (k n : Nat) (category : Category) :
    Tracks (fun s => Frame.Opens ⟨category, n, s⟩ (n + k)) (ruleOver (factorWithin k) category)
      (ruleOver unlimitedFactor category) := by
  cases category with
  | expression => exact expression_tracks (factor_tracks k n)
  | term => exact term_tracks (factor_tracks k n)
  | factor => exact factor_tracks k n

theorem ruleOver_unlimited_neverTooDeep (category : Category) :
    (ruleOver unlimitedFactor category).NeverTooDeep := by
  cases category with
  | expression =>
      exact chain_neverTooDeep .sum (chain_neverTooDeep .product unlimitedFactor_neverTooDeep)
  | term => exact chain_neverTooDeep .product unlimitedFactor_neverTooDeep
  | factor => exact unlimitedFactor_neverTooDeep

/-- A rule finds the groups too many exactly at the first one too many that is opened without a
limit. -/
theorem rule_tooDeep_iff (depth : Nat) (category : Category) (s : Scanner) (limit offset : Nat) :
    ((rule depth category).run s).result = .error (.grammar (.nestingTooDeep limit offset)) ↔
      limit = maxNesting ∧
        IsLeast {o | Frame.Opens ⟨category, 0, s⟩ (maxNesting - depth) o} offset := by
  have htracks := ruleOver_tracks (maxNesting - depth) 0 category s
  rw [Nat.zero_add] at htracks
  rcases htracks with ⟨hrun, hnone⟩ | ⟨offset', hleast, hdeep⟩
  · constructor
    · intro h
      change ((ruleOver (factorWithin _) category).run s).result = _ at h
      rw [hrun] at h
      exact absurd h (ruleOver_unlimited_neverTooDeep category s limit offset)
    · intro h
      exact absurd h.2.1 (hnone offset)
  · change ((ruleOver (factorWithin _) category).run s).result = _ ↔ _
    rw [hdeep]
    constructor
    · intro h
      simp only [Except.error.injEq, ParseError.grammar.injEq,
        SyntaxError.nestingTooDeep.injEq] at h
      obtain ⟨rfl, rfl⟩ := h
      exact ⟨rfl, hleast⟩
    · rintro ⟨rfl, h⟩
      rw [hleast.unique h]

/-- A rule that does not find the groups too many does what it would do inside of fewer groups or
without a limit. -/
theorem rule_run_eq {d d' : Nat} (hd : d ≤ d') (category : Category) (s : Scanner)
    (h : ∀ limit offset, ((rule d' category).run s).result ≠
      .error (.grammar (.nestingTooDeep limit offset))) :
    (rule d category).run s = (rule d' category).run s ∧
      (rule d' category).run s = (ruleOver unlimitedFactor category).run s := by
  have hnone : ∀ offset, ¬ Frame.Opens ⟨category, 0, s⟩ (maxNesting - d') offset := by
    intro offset hopens
    rcases ruleOver_tracks (maxNesting - d') 0 category s with ⟨-, hn⟩ | ⟨offset', -, hdeep⟩
    · rw [Nat.zero_add] at hn
      exact hn offset hopens
    · exact h _ _ hdeep
  have hfree : ∀ n, n ≤ d' →
      (rule n category).run s = (ruleOver unlimitedFactor category).run s := by
    intro n hn
    rcases ruleOver_tracks (maxNesting - n) 0 category s with ⟨hrun, -⟩ | ⟨offset, hleast, -⟩
    · exact hrun
    · rw [Nat.zero_add] at hleast
      obtain ⟨offset', hopens⟩ := hleast.1.exists_of_le (Nat.zero_le _)
        (show maxNesting - d' ≤ maxNesting - n by omega)
      exact absurd hopens (hnone offset')
  exact ⟨(hfree d hd).trans (hfree d' le_rfl).symm, hfree d' le_rfl⟩

/-! ## Depth of calls -/

/-- How many calls deep a frame may go without opening a group. -/
def Category.rank : Category → Nat
  | .expression => 2
  | .term => 1
  | .factor => 0

/-- The calls below a frame, counted by the groups that it may still open. -/
def Frame.room (f : Frame) : Nat :=
  3 * (maxNesting - f.depth) + f.category.rank

theorem Frame.Calls.room_lt {f g : Frame} (h : Frame.Calls (some maxNesting) f g) :
    g.room < f.room := by
  cases h with
  | term => simp [Frame.room, Category.rank]
  | factor => simp [Frame.room, Category.rank]
  | @group depth s _ hlimit =>
      have := hlimit maxNesting rfl
      simp only [Frame.room, Category.rank]
      omega

theorem Frame.length_le_room {f : Frame} {fs : List Frame}
    (h : (f :: fs).IsChain (Frame.Calls (some maxNesting))) : fs.length ≤ f.room := by
  induction fs generalizing f with
  | nil => exact Nat.zero_le _
  | cons g fs ih =>
      rw [List.isChain_cons_cons] at h
      have hlength := ih h.2
      have hroom := h.1.room_lt
      rw [List.length_cons]
      omega

theorem Frame.depth_le_max {f g : Frame}
    (h : Relation.ReflTransGen (Frame.Calls (some maxNesting)) f g) :
    g.depth ≤ max f.depth maxNesting := by
  induction h with
  | refl => exact le_max_left _ _
  | tail _ hcall ih =>
      cases hcall with
      | term => exact ih
      | factor => exact ih
      | group _ hlimit => exact (Nat.succ_le_of_lt (hlimit maxNesting rfl)).trans (le_max_right _ _)

/-- The limit on groups in a rule of a category that is applied inside of `depth` groups, beside the
same rule inside of `fewer`. Depths are words of 64 bits. -/
structure NestingLimit (category : Category) (s : Scanner) (fewer depth : Nat) : Prop where
  run_eq : (∀ limit offset, ((rule depth category).run s).result ≠
      .error (.grammar (.nestingTooDeep limit offset))) →
    (rule fewer category).run s = (rule depth category).run s ∧
      (rule depth category).run s = (ruleOver unlimitedFactor category).run s
  tooDeep_iff : ∀ limit offset,
    ((rule depth category).run s).result = .error (.grammar (.nestingTooDeep limit offset)) ↔
      limit = maxNesting ∧
        IsLeast {o | Frame.Opens ⟨category, 0, s⟩ (maxNesting - depth) o} offset
  factor_eq : ∀ n, factor n =
    factorOver (if n < maxNesting then some (expressionOver (factor (n + 1))) else none)
  unlimitedFactor_eq : unlimitedFactor = factorOver (some (expressionOver unlimitedFactor))
  groups_le : ∀ f, Relation.ReflTransGen (Frame.Calls (some maxNesting)) ⟨category, depth, s⟩ f →
    f.depth - depth ≤ maxNesting - depth ∧ f.depth < UInt64.size
  length_le : ∀ fs, (⟨category, depth, s⟩ :: fs).IsChain (Frame.Calls (some maxNesting)) →
    fs.length ≤ 3 * (maxNesting - depth) + 2

/-- A rule is not disturbed by the limit before it opens a group too many, whatever the depth at
which it starts. It goes no deeper than the limit allows, and no depth is too large for a word. -/
theorem nestingLimit (category : Category) (s : Scanner) {fewer depth : Nat}
    (hle : fewer ≤ depth) (hword : depth < UInt64.size) : NestingLimit category s fewer depth where
  run_eq := by
    intro h
    exact rule_run_eq hle category s h
  tooDeep_iff := by
    intro limit offset
    exact rule_tooDeep_iff depth category s limit offset
  factor_eq := by
    intro n
    obtain ⟨hlt, hge⟩ := factorUnder_eq (some maxNesting) n
    split
    next h => exact hlt (by simpa using h)
    next h => exact hge maxNesting rfl (Nat.le_of_not_lt h)
  unlimitedFactor_eq := unlimitedFactor_eq
  groups_le := by
    intro f hf
    have hmax : f.depth ≤ max depth maxNesting := Frame.depth_le_max hf
    have hnesting : maxNesting < UInt64.size := by decide
    omega
  length_le := by
    intro fs hfs
    have hlength := Frame.length_le_room hfs
    have hrank : category.rank ≤ 2 := by cases category <;> decide
    simp only [Frame.room] at hlength
    omega

/-- One group may still be opened, or none any more, as far as depths go. -/
theorem nestingLimit_at_end_of_words :
    255 ≤ UInt64.size - 1 ∧ UInt64.size - 1 < UInt64.size ∧
      NestingLimit .expression (Scanner.ofSource "(1)+((2)") 255 (UInt64.size - 1) :=
  ⟨by decide, by decide,
    nestingLimit .expression (Scanner.ofSource "(1)+((2)") (by decide) (by decide)⟩

end FourFunction.Grammar
