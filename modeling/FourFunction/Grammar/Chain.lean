import FourFunction.Grammar.Outcome

/-! Chains of operators of one level. Their operands are given by a tighter rule, and they group
to the left. -/

namespace FourFunction.Grammar

/-- Extends the tree on the left by one operator and operand after the other. The first token that
does not continue the chain is given back. -/
def extend (level : Level) (operand : Rule) (left : Expr) (s : Scanner) (events : Array Event) :
    Outcome :=
  match _h : s.next.1.operatorOf? level with
  | some op =>
    let right := operand.run s.next.2
    let events := events ++ s.nextEvents ++ right.events
    match right.result with
    | .ok e => extend level operand (.binary op left e) right.scanner events
    | .error cause => ⟨.error cause, right.scanner, events⟩
  | none =>
    let events := events ++ s.nextEvents
    match s.next.2.pushBack with
    | .ok back =>
      ⟨.ok left, back, events ++ s.next.2.pushBackEvents |>.push (.chain level left)⟩
    | .error cause => ⟨.error (.scan cause), s.next.2, events⟩
termination_by s.unread
decreasing_by
  refine Nat.lt_of_le_of_lt (operand.unread_le _) (Scanner.unread_next_lt ?_)
  intro he
  simp [he, Token.operatorOf?] at _h

theorem unread_extend_le (level : Level) (operand : Rule) (left : Expr) (s : Scanner)
    (events : Array Event) : (extend level operand left s events).scanner.unread ≤ s.unread := by
  fun_induction extend level operand left s events with
  | case1 left s events op hop right events' e he ih =>
      exact Nat.le_trans ih (Nat.le_trans (operand.unread_le _) s.unread_next_le)
  | case2 left s events op hop right events' cause he =>
      exact Nat.le_trans (operand.unread_le _) s.unread_next_le
  | case3 left s events hop events' back hb =>
      rw [Scanner.pushBack_next] at hb
      obtain rfl := Except.ok.inj hb
      exact Nat.le_refl _
  | case4 left s events hop events' cause hb => exact s.unread_next_le

/-- One operand, then any number of operators of a level, each with another operand. -/
def chain (level : Level) (operand : Rule) : Rule where
  run s :=
    let first := operand.run s
    match first.result with
    | .ok left => extend level operand left first.scanner first.events
    | .error _ => first
  unread_le s := by
    simp only
    split
    · exact Nat.le_trans (unread_extend_le ..) (operand.unread_le s)
    · exact operand.unread_le s

end FourFunction.Grammar
