import FourFunction.Grammar.Frame
import FourFunction.Proofs.Grammar.Soundness
import Mathlib.Order.Nat

/-! The rules without a limit on groups. What a chain gives depends on its operands only, so rules
that open as many groups as there are characters left are as good as rules without a limit. -/

namespace FourFunction.Grammar

variable {level : Level} {operand : Rule}

/-! ## Chains and their operands -/

theorem extend_of_ok {left right : Expr} {s : Scanner} {events : Array Event} {op : Operator}
    (hop : s.next.1.operatorOf? level = some op)
    (hr : (operand.run s.next.2).result = .ok right) :
    extend level operand left s events =
      extend level operand (.binary op left right) (operand.run s.next.2).scanner
        (events ++ s.nextEvents ++ (operand.run s.next.2).events) := by
  rw [extend]
  split
  · simp_all
  · simp_all

theorem extend_of_error {left : Expr} {s : Scanner} {events : Array Event} {op : Operator}
    {cause : ParseError} (hop : s.next.1.operatorOf? level = some op)
    (hr : (operand.run s.next.2).result = .error cause) :
    extend level operand left s events =
      ⟨.error cause, (operand.run s.next.2).scanner,
        events ++ s.nextEvents ++ (operand.run s.next.2).events⟩ := by
  rw [extend]
  split
  · simp_all
  · simp_all

theorem extend_of_none {left : Expr} {s : Scanner} {events : Array Event}
    (hop : s.next.1.operatorOf? level = none) :
    extend level operand left s events =
      ⟨.ok left, ⟨s.cursor, .spent⟩,
        (events ++ s.nextEvents ++ s.next.2.pushBackEvents).push (.chain level left)⟩ := by
  rw [extend]
  split
  · simp_all
  · simp

theorem chain_run_of_ok {s : Scanner} {left : Expr} (h : (operand.run s).result = .ok left) :
    (chain level operand).run s =
      extend level operand left (operand.run s).scanner (operand.run s).events := by
  simp only [chain, h]

theorem chain_run_of_error {s : Scanner} {cause : ParseError}
    (h : (operand.run s).result = .error cause) :
    (chain level operand).run s = operand.run s := by
  simp only [chain, h]

/-- The scanners to which a chain applies its operand rule once it has come to look for an
operator. -/
def Follows (level : Level) (operand : Rule) (s t : Scanner) : Prop :=
  ∃ op, s.next.1.operatorOf? level = some op ∧ Operands level operand s.next.2 t

theorem operands_iff {s t : Scanner} :
    Operands level operand s t ↔
      t = s ∨ ∃ e, (operand.run s).result = .ok e ∧
        Follows level operand (operand.run s).scanner t := by
  constructor
  · intro h
    cases h with
    | first => exact .inl rfl
    | next he hop ht => exact .inr ⟨_, he, _, hop, ht⟩
  · rintro (rfl | ⟨e, he, op, hop, ht⟩)
    · exact .first t
    · exact .next he hop ht

theorem Operands.unread_le {s t : Scanner} (h : Operands level operand s t) :
    t.unread ≤ s.unread := by
  induction h with
  | first => exact le_rfl
  | next _ _ _ ih =>
      exact ih.trans ((Scanner.unread_next_le _).trans (operand.unread_le _))

/-- Chains agree if the rules for their operands agree wherever they are applied. -/
theorem Extends.extend_eq {r : Rule} {left : Expr} {s : Scanner} {events : Array Event}
    {o : Outcome} (h : Extends level operand left s events o) :
    (∀ t, Follows level operand s t → r.run t = operand.run t) →
      extend level r left s events = o := by
  induction h with
  | @next left right s events op o hop he _ ih =>
      intro hr
      have hrun := hr s.next.2 ⟨op, hop, .first _⟩
      rw [extend_of_ok hop (hrun ▸ he), hrun]
      refine ih ?_
      intro t ht
      obtain ⟨op', hop', ht⟩ := ht
      exact hr t ⟨op, hop, .next he hop' ht⟩
  | @failed left s events op cause hop he =>
      intro hr
      have hrun := hr s.next.2 ⟨op, hop, .first _⟩
      rw [extend_of_error hop (hrun ▸ he), hrun]
  | last hop =>
      intro _
      exact extend_of_none hop

theorem chain_run_congr {r : Rule} {s : Scanner}
    (h : ∀ t, Operands level operand s t → r.run t = operand.run t) :
    (chain level r).run s = (chain level operand).run s := by
  have hs := h s (.first s)
  rcases chain_cases level operand s with ⟨left, hl, hextends⟩ | ⟨cause, hc, hrun⟩
  · rw [chain_run_of_ok (hs ▸ hl), hs]
    refine hextends.extend_eq ?_
    intro t ht
    exact h t (operands_iff.mpr (.inr ⟨left, hl, ht⟩))
  · rw [hrun, chain_run_of_error (hs ▸ hc), hs]

theorem expressionOver_run_congr {r f : Rule} {s : Scanner}
    (h : ∀ t, t.unread ≤ s.unread → r.run t = f.run t) :
    (expressionOver r).run s = (expressionOver f).run s := by
  refine chain_run_congr ?_
  intro t ht
  refine chain_run_congr ?_
  intro u hu
  exact h u (hu.unread_le.trans ht.unread_le)

/-- A chain fails only as one of its operands does. -/
theorem Extends.exists_operand {left : Expr} {s : Scanner} {events : Array Event} {o : Outcome}
    (h : Extends level operand left s events o) :
    ∀ cause, o.result = .error cause →
      ∃ t, Follows level operand s t ∧ (operand.run t).result = .error cause := by
  induction h with
  | @next left right s events op o hop he _ ih =>
      intro cause hc
      obtain ⟨t, ⟨op', hop', ht⟩, hcause⟩ := ih cause hc
      exact ⟨t, ⟨op, hop, .next he hop' ht⟩, hcause⟩
  | @failed left s events op cause' hop he =>
      intro cause hc
      obtain rfl := Except.error.inj hc
      exact ⟨s.next.2, ⟨op, hop, .first _⟩, he⟩
  | last _ => simp

theorem exists_operand_of_chain {s : Scanner} {cause : ParseError}
    (h : ((chain level operand).run s).result = .error cause) :
    ∃ t, Operands level operand s t ∧ (operand.run t).result = .error cause := by
  rcases chain_cases level operand s with ⟨left, hl, hextends⟩ | ⟨cause', hc, hrun⟩
  · obtain ⟨t, ht, hcause⟩ := hextends.exists_operand cause h
    exact ⟨t, operands_iff.mpr (.inr ⟨left, hl, ht⟩), hcause⟩
  · exact ⟨s, .first s, hrun ▸ h⟩

/-! ## Factors -/

theorem factorOver_run_of_ne {inner inner' : Option Rule} {s : Scanner}
    (h : s.next.1 ≠ .symbol .leftParen) :
    (factorOver inner).run s = (factorOver inner').run s := by
  rcases factorOver_cases inner s with ⟨value, hn, hrun⟩ | ⟨hn, -⟩ | ⟨hnumber, hparen, hrun⟩
  · rcases factorOver_cases inner' s with ⟨value', hn', hrun'⟩ | ⟨hn', -⟩ | ⟨hnumber', -, -⟩
    · obtain rfl := Token.number.inj (hn.symm.trans hn')
      rw [hrun, hrun']
    · exact absurd hn' h
    · exact absurd hn (hnumber' value)
  · exact absurd hn h
  · rcases factorOver_cases inner' s with ⟨value', hn', -⟩ | ⟨hn', -⟩ | ⟨-, -, hrun'⟩
    · exact absurd hn' (hnumber value')
    · exact absurd hn' h
    · rw [hrun, hrun']

theorem factorOver_run_of_leftParen {inner : Option Rule} {s : Scanner}
    (h : s.next.1 = .symbol .leftParen) :
    (factorOver inner).run s = (group inner s.next.2).after s.nextEvents := by
  rcases factorOver_cases inner s with ⟨value, hn, -⟩ | ⟨-, hrun⟩ | ⟨-, hparen, -⟩
  · simp [h] at hn
  · exact hrun
  · exact absurd h hparen

theorem group_congr {r f : Rule} {s : Scanner} (h : r.run s = f.run s) :
    group (some r) s = group (some f) s := by
  simp only [group, h]

/-- More groups than characters that are left make no difference. -/
theorem factorWithin_run_eq {n m : Nat} {s : Scanner} (hn : s.unread ≤ n) (hm : s.unread ≤ m) :
    (factorWithin n).run s = (factorWithin m).run s := by
  induction n generalizing m s with
  | zero =>
      -- Without a character there is no parenthesis to be read.
      have hne : s.next.1 ≠ .symbol .leftParen := by
        intro h
        have := Scanner.unread_next_lt (s := s) (by simp [h])
        omega
      cases m with
      | zero => rfl
      | succ m => exact factorOver_run_of_ne hne
  | succ n ih =>
      by_cases h : s.next.1 = .symbol .leftParen
      · have hlt : s.next.2.unread < s.unread := Scanner.unread_next_lt (by simp [h])
        obtain ⟨m, rfl⟩ : ∃ k, m = k + 1 := ⟨m - 1, by omega⟩
        rw [factorWithin, factorWithin, factorOver_run_of_leftParen h,
          factorOver_run_of_leftParen h]
        refine congrArg (Outcome.after s.nextEvents) (group_congr (expressionOver_run_congr ?_))
        intro t ht
        exact ih (by omega) (by omega)
      · cases m with
        | zero => exact factorOver_run_of_ne h
        | succ m => exact factorOver_run_of_ne h

theorem Rule.ext_run {r f : Rule} (h : ∀ s, r.run s = f.run s) : r = f := by
  cases r
  cases f
  simp only [Rule.mk.injEq]
  exact funext h

/-- The factor rule without a limit is the one whose groups hold expressions of such factors. -/
theorem unlimitedFactor_eq :
    unlimitedFactor = factorOver (some (expressionOver unlimitedFactor)) := by
  refine Rule.ext_run ?_
  intro s
  have hstep : unlimitedFactor.run s = (factorWithin (s.unread + 1)).run s :=
    factorWithin_run_eq le_rfl (Nat.le_succ _)
  rw [hstep, factorWithin]
  by_cases h : s.next.1 = .symbol .leftParen
  · have hlt : s.next.2.unread < s.unread := Scanner.unread_next_lt (by simp [h])
    rw [factorOver_run_of_leftParen h, factorOver_run_of_leftParen h]
    refine congrArg (Outcome.after s.nextEvents) (group_congr (expressionOver_run_congr ?_))
    intro t ht
    exact factorWithin_run_eq (by omega) le_rfl
  · exact factorOver_run_of_ne h

/-- Below the limit a factor may hold an expression of one group more, and at the limit none. -/
theorem factorUnder_eq (limit : Option Nat) (depth : Nat) :
    ((∀ l ∈ limit, depth < l) →
      factorUnder limit depth =
        factorOver (some (expressionOver (factorUnder limit (depth + 1))))) ∧
    (∀ l ∈ limit, l ≤ depth → factorUnder limit depth = factorOver none) := by
  cases limit with
  | none => exact ⟨fun _ => unlimitedFactor_eq, by simp⟩
  | some l =>
      refine ⟨?_, ?_⟩
      · intro h
        have hl : l - depth = l - (depth + 1) + 1 := by
          have := h l rfl
          omega
        rw [factorUnder, hl, factorWithin]
        rfl
      · intro k hk hle
        obtain rfl := Option.some.inj hk
        rw [factorUnder, Nat.sub_eq_zero_of_le hle, factorWithin]

/-! ## Errors and offsets -/

/-- Whatever a rule answers, it is not that the groups are too many. -/
def Rule.NeverTooDeep (r : Rule) : Prop :=
  ∀ s limit offset, (r.run s).result ≠ .error (.grammar (.nestingTooDeep limit offset))

theorem chain_neverTooDeep (level : Level) (h : operand.NeverTooDeep) :
    (chain level operand).NeverTooDeep := by
  intro s limit offset he
  obtain ⟨t, -, ht⟩ := exists_operand_of_chain he
  exact h t limit offset ht

theorem unlimitedFactor_neverTooDeep : unlimitedFactor.NeverTooDeep := by
  intro s limit offset
  induction hn : s.unread using Nat.strong_induction_on generalizing s with
  | _ n ih =>
      intro he
      rw [unlimitedFactor_eq] at he
      rcases factorOver_cases (some (expressionOver unlimitedFactor)) s with
        ⟨value, -, hrun⟩ | ⟨hparen, hrun⟩ | ⟨-, -, hrun⟩
      · simp [hrun] at he
      · have hlt : s.next.2.unread < s.unread := Scanner.unread_next_lt (by simp [hparen])
        rw [hrun] at he
        change (group _ s.next.2).result = _ at he
        rcases group_cases (expressionOver unlimitedFactor) s.next.2 with
          ⟨cause, hc, hgroup⟩ | ⟨e, -, -, hgroup⟩ | ⟨e, -, -, hgroup⟩
        · rw [hgroup] at he
          obtain rfl := Except.error.inj he
          obtain ⟨t, ht, hterm⟩ := exists_operand_of_chain hc
          obtain ⟨u, hu, hfactor⟩ := exists_operand_of_chain hterm
          have hle := hu.unread_le.trans ht.unread_le
          exact ih u.unread (by omega) u rfl hfactor
        · simp [hgroup] at he
        · simp [hgroup] at he
      · simp [hrun] at he

end FourFunction.Grammar
