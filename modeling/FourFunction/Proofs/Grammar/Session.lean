import FourFunction.Grammar.Session
import FourFunction.Proofs.Grammar.Rules
import Mathlib.Data.List.Induction

/-! What is true of a scanner whatever has been done to it. All that rules do to a scanner is to
read tokens and to give them back, so a property that these two keep is kept by every action. -/

namespace FourFunction

/-- The scanner, and the place to which it can go back, are places of the source. -/
def Scanner.LiesIn (source : List Char) (s : Scanner) : Prop :=
  s.cursor.LiesIn source ∧ ∀ before, s.history = .returnable before → before.LiesIn source

namespace Grammar

/-- A property of scanners that is not lost by reading a token or by giving one back. -/
structure Kept (P : Scanner → Prop) : Prop where
  next : ∀ s, P s → P s.next.2
  pushBack : ∀ s back, P s → s.pushBack = .ok back → P back

def Rule.Keeps (P : Scanner → Prop) (r : Rule) : Prop :=
  ∀ s, P s → P (r.run s).scanner

variable {P : Scanner → Prop}

theorem Extends.keeps (hk : Kept P) {level : Level} {operand : Rule} (ho : operand.Keeps P)
    {left : Expr} {s : Scanner} {events : Array Event} {o : Outcome}
    (h : Extends level operand left s events o) : P s → P o.scanner := by
  induction h with
  | @next left right s events op o _ _ _ ih =>
      intro hs
      exact ih (ho s.next.2 (hk.next s hs))
  | @failed left s events op cause _ _ =>
      intro hs
      exact ho s.next.2 (hk.next s hs)
  | @last left s events _ =>
      intro hs
      exact hk.pushBack s.next.2 _ (hk.next s hs) s.pushBack_next

theorem chain_keeps (hk : Kept P) (level : Level) {operand : Rule} (ho : operand.Keeps P) :
    (chain level operand).Keeps P := by
  intro s hs
  rcases chain_cases level operand s with ⟨left, -, hextends⟩ | ⟨cause, -, hrun⟩
  · exact hextends.keeps hk ho (ho s hs)
  · rw [hrun]
    exact ho s hs

theorem group_keeps (hk : Kept P) {inner : Option Rule}
    (hi : ∀ expression ∈ inner, expression.Keeps P) {s : Scanner} (hs : P s) :
    P (group inner s).scanner := by
  cases inner with
  | none => exact hs
  | some expression =>
      have hbody := hi expression rfl s hs
      rcases group_cases expression s with ⟨cause, -, hrun⟩ | ⟨e, -, -, hrun⟩ | ⟨e, -, -, hrun⟩
      · rw [hrun]
        exact hbody
      · rw [hrun]
        exact hk.next _ hbody
      · rw [hrun]
        exact hk.next _ hbody

theorem factorOver_keeps (hk : Kept P) {inner : Option Rule}
    (hi : ∀ expression ∈ inner, expression.Keeps P) : (factorOver inner).Keeps P := by
  intro s hs
  have hnext := hk.next s hs
  rcases factorOver_cases inner s with ⟨value, -, hrun⟩ | ⟨-, hrun⟩ | ⟨-, -, hrun⟩
  · rw [hrun]
    exact hnext
  · rw [hrun]
    exact group_keeps hk hi hnext
  · rw [hrun]
    exact hnext

theorem rule_keeps (hk : Kept P) (depth : Nat) (category : Category) :
    (rule depth category).Keeps P :=
  rule_induction (fun level _ => chain_keeps hk level) (fun _ => factorOver_keeps hk) depth category

theorem input_keeps (hk : Kept P) {s : Scanner} (hs : P s) : P (input s).scanner := by
  have hexpression := rule_keeps hk 0 .expression s hs
  rcases input_cases s with ⟨cause, -, hrun⟩ | ⟨e, -, -, hrun⟩ | ⟨e, -, -, hrun⟩ <;> rw [hrun] <;>
    exact hexpression

theorem perform_keeps (hk : Kept P) {s : Scanner} (hs : P s) (action : Action) :
    P (action.perform s) := by
  cases action with
  | call c =>
      cases c with
      | next => exact hk.next s hs
      | pushBack =>
          simp only [Action.perform, Scanner.perform]
          cases hb : s.pushBack with
          | ok back => exact hk.pushBack s back hs hb
          | error cause => exact hs
  | rule depth category => exact rule_keeps hk depth category s hs
  | input => exact input_keeps hk hs

/-- What is true of a fresh scanner and kept by tokens is true whatever has been done. -/
theorem reached_keeps (hk : Kept P) {source : String} (h : P (Scanner.ofSource source))
    (actions : List Action) : P (reached source actions) := by
  induction actions using List.reverseRecOn with
  | nil => exact h
  | append_singleton actions action ih =>
      rw [reached, List.foldl_concat]
      exact perform_keeps hk ih action

theorem kept_liesIn (source : List Char) : Kept (Scanner.LiesIn source) where
  next := by
    intro s hs
    refine ⟨s.liesIn_next hs.1, ?_⟩
    intro before hb
    rw [Scanner.history_next, History.returnable.injEq] at hb
    exact hb ▸ hs.1
  pushBack := by
    intro s back hs hb
    cases hh : s.history with
    | untouched => simp [Scanner.pushBack, hh] at hb
    | spent => simp [Scanner.pushBack, hh] at hb
    | returnable before =>
        simp only [Scanner.pushBack, hh, Except.ok.injEq] at hb
        rw [← hb]
        exact ⟨hs.2 before hh, by simp⟩

theorem liesIn_reached (source : String) (actions : List Action) :
    (reached source actions).LiesIn source.toList :=
  reached_keeps (kept_liesIn source.toList)
    ⟨Cursor.liesIn_first source.toList, by simp [Scanner.ofSource]⟩ actions

end Grammar

end FourFunction
