import FourFunction.Proofs.Grammar.Session
import FourFunction.Proofs.Grammar.Unlimited
import FourFunction.Proofs.Scanner.Shift

/-! Rules depend on the text that is left and on nothing else. Applied to a fresh scanner over that
text they come to the same, with all offsets less by what lies in front of it. -/

namespace FourFunction.Grammar

open Text (dropBytes)

/-- The same outcome further on. -/
def Outcome.shift (k : Nat) (o : Outcome) : Outcome :=
  ⟨o.result.mapError (ParseError.shift k), o.scanner.shift k, o.events.map (Event.shift k)⟩

/-- Where the same text is left, the rule comes to the same further on. -/
def Rule.Shifts (r : Rule) : Prop :=
  ∀ k s t, s.cursor = t.cursor.shift k → r.run s = (r.run t).shift k

theorem Extends.extend_shift {level : Level} {operand : Rule} (ho : operand.Shifts) {k : Nat}
    {left : Expr} {t : Scanner} {events : Array Event} {o : Outcome}
    (h : Extends level operand left t events o) : ∀ s : Scanner, s.cursor = t.cursor.shift k →
      extend level operand left s (events.map (Event.shift k)) = o.shift k := by
  induction h with
  | @next left right t events op o hop he _ ih =>
      intro s hs
      have hnext := Scanner.next_shift hs
      have hrun := ho k s.next.2 t.next.2 (by rw [hnext]; rfl)
      have hresult : (operand.run s.next.2).result = .ok right := by
        rw [hrun, Outcome.shift, he]
        rfl
      rw [extend_of_ok (by rw [hnext]; exact hop) hresult, Scanner.nextEvents_shift hs, hrun,
        ← ih ((operand.run t.next.2).scanner.shift k) rfl]
      simp [Outcome.shift]
  | @failed left t events op cause hop he =>
      intro s hs
      have hnext := Scanner.next_shift hs
      have hrun := ho k s.next.2 t.next.2 (by rw [hnext]; rfl)
      have hresult : (operand.run s.next.2).result = .error (cause.shift k) := by
        rw [hrun, Outcome.shift, he]
        rfl
      rw [extend_of_error (by rw [hnext]; exact hop) hresult, Scanner.nextEvents_shift hs, hrun]
      simp [Outcome.shift, Except.mapError]
  | @last left t events hop =>
      intro s hs
      have hnext := Scanner.next_shift hs
      rw [extend_of_none (by rw [hnext]; exact hop), Scanner.nextEvents_shift hs, hnext,
        Scanner.pushBackEvents_shift, hs]
      simp [Outcome.shift, Except.mapError, Scanner.shift, History.shift, Event.shift]

theorem chain_shifts (level : Level) {operand : Rule} (ho : operand.Shifts) :
    (chain level operand).Shifts := by
  intro k s t hs
  have hrun := ho k s t hs
  rcases chain_cases level operand t with ⟨left, hl, hextends⟩ | ⟨cause, hc, hfailed⟩
  · have hresult : (operand.run s).result = .ok left := by
      rw [hrun, Outcome.shift, hl]
      rfl
    rw [chain_run_of_ok hresult, hrun]
    exact hextends.extend_shift ho _ rfl
  · have hresult : (operand.run s).result = .error (cause.shift k) := by
      rw [hrun, Outcome.shift, hc]
      rfl
    rw [chain_run_of_error hresult, hfailed, hrun]

/-! ## Groups and factors -/

theorem group_shift {inner : Option Rule} (hi : ∀ expression ∈ inner, expression.Shifts) (k : Nat)
    (t : Scanner) : group inner (t.shift k) = (group inner t).shift k := by
  cases inner with
  | none =>
      simp [group, Outcome.shift, Except.mapError, ParseError.shift, SyntaxError.shift,
        Scanner.tokenStart_shift]
  | some expression =>
      have hrun := hi expression rfl k (t.shift k) t rfl
      simp only [group, hrun]
      generalize expression.run t = body
      cases hb : body.result with
      | error cause => simp [Outcome.shift, hb, Except.mapError]
      | ok e =>
          have hnext : (body.shift k).scanner.next = _ := Scanner.next_shift rfl
          have hevents : (body.shift k).scanner.nextEvents = _ := Scanner.nextEvents_shift rfl
          rw [hnext, hevents]
          rcases body.scanner.next with ⟨value | ⟨op | _ | _⟩ | _, after⟩ <;>
            simp [Outcome.shift, hb, Except.mapError, ParseError.shift, SyntaxError.shift,
              Scanner.tokenStart_shift, Event.shift]

theorem factorOver_shifts {inner : Option Rule}
    (hi : ∀ expression ∈ inner, expression.Shifts) : (factorOver inner).Shifts := by
  intro k s t hs
  simp only [factorOver]
  rw [Scanner.next_shift hs, Scanner.nextEvents_shift hs]
  rcases t.next with ⟨value | ⟨op | _ | _⟩ | _, after⟩ <;>
    simp [Outcome.shift, Outcome.after, Except.mapError, ParseError.shift, SyntaxError.shift,
      Scanner.tokenStart_shift, Event.shift, group_shift hi]

/-! ## Rules and whole sources -/

theorem rule_shifts (depth : Nat) (category : Category) : (rule depth category).Shifts :=
  rule_induction (fun level _ => chain_shifts level) (fun _ => factorOver_shifts) depth category

theorem input_shift {k : Nat} {s t : Scanner} (h : s.cursor = t.cursor.shift k) :
    input s = (input t).shift k := by
  have hrun : (expression 0).run s = ((expression 0).run t).shift k :=
    rule_shifts 0 .expression k s t h
  simp only [input, hrun]
  generalize (expression 0).run t = o
  cases ho : o.result with
  | error cause => simp [Outcome.shift, ho, Except.mapError]
  | ok e =>
      cases hx : o.scanner.exhausted with
      | true => simp [Outcome.shift, ho, Except.mapError, Scanner.exhausted_shift, hx, Event.shift]
      | false =>
          simp [Outcome.shift, ho, Except.mapError, Scanner.exhausted_shift, hx, ParseError.shift,
            SyntaxError.shift, Scanner.remainder_shift, Scanner.remainderOffset_shift]

/-- What is to be seen of an outcome, and of a fresh one that stands `k` bytes further back. -/
structure Relocated (k : Nat) (o fresh : Outcome) : Prop where
  result : o.result = fresh.result.mapError (ParseError.shift k)
  cursor : o.scanner.cursor.offset = fresh.scanner.cursor.offset + k
  tokenStart : o.scanner.tokenStart = fresh.scanner.tokenStart + k
  remainderOffset : o.scanner.remainderOffset = fresh.scanner.remainderOffset + k
  remainder : o.scanner.remainder = fresh.scanner.remainder
  exhausted : o.scanner.exhausted = fresh.scanner.exhausted
  pushBack : o.scanner.pushBack =
    (fresh.scanner.pushBack.map (Scanner.shift k)).mapError (ScanError.shift k)
  events : o.events = fresh.events.map (Event.shift k)

theorem relocated_shift (k : Nat) (fresh : Outcome) : Relocated k (fresh.shift k) fresh where
  result := rfl
  cursor := rfl
  tokenStart := fresh.scanner.tokenStart_shift k
  remainderOffset := fresh.scanner.remainderOffset_shift k
  remainder := fresh.scanner.remainder_shift k
  exhausted := fresh.scanner.exhausted_shift k
  pushBack := fresh.scanner.pushBack_shift k
  events := rfl

/-- Whatever has been done to a scanner, a rule applied to it comes to what it comes to on the text
that is left, and so does reading the whole of that text. -/
theorem rules_of_remaining_text (source : String) (actions : List Action) (depth : Nat)
    (category : Category) :
    let s := reached source actions
    let fresh := Scanner.ofSource (String.ofList (dropBytes s.cursor.offset source.toList))
    Relocated s.cursor.offset ((rule depth category).run s) ((rule depth category).run fresh) ∧
      Relocated s.cursor.offset (input s) (input fresh) := by
  intro s fresh
  have hcursor : s.cursor = fresh.cursor.shift s.cursor.offset := by
    have hrest := (liesIn_reached source actions).1.dropBytes_eq
    simp only [fresh, Scanner.ofSource, Cursor.first, Cursor.shift, String.toList_ofList, s, hrest,
      Nat.zero_add]
  rw [rule_shifts depth category _ s fresh hcursor, input_shift hcursor]
  exact ⟨relocated_shift _ _, relocated_shift _ _⟩

end FourFunction.Grammar
