import FourFunction.Proofs.Trace.Phrases

/-! The trace accounts for all of a source. That of an accepted source tells of every lexeme and of
every tree, and that of a rejected one of no whole source. -/

namespace FourFunction.Grammar

variable {source : String} {s : Scanner} {level : Level} {operand : Rule}

/-! ## Rejected sources -/

/-- Whatever a rule comes to, its trace is about parts of the source. -/
def Rule.TellsOfParts (r : Rule) : Prop :=
  ∀ s, (r.run s).events.toList.any Event.ofWhole = false

theorem any_ofWhole_nextEvents (s : Scanner) : s.nextEvents.toList.any Event.ofWhole = false := by
  rcases s.nextEvents_cases with hevents | hevents | ⟨p, hevents⟩ <;> rw [hevents] <;> rfl

theorem Extends.tellsOfParts (ho : operand.TellsOfParts) {left : Expr} {events : Array Event}
    {o : Outcome} (h : Extends level operand left s events o)
    (hevents : events.toList.any Event.ofWhole = false) :
    o.events.toList.any Event.ofWhole = false := by
  induction h with
  | @next left right s events op o _ _ _ ih =>
      apply ih
      rw [Array.toList_append, Array.toList_append, List.any_append, List.any_append, hevents,
        any_ofWhole_nextEvents, ho s.next.2]
      rfl
  | @failed left s events op cause _ _ =>
      rw [Array.toList_append, Array.toList_append, List.any_append, List.any_append, hevents,
        any_ofWhole_nextEvents, ho s.next.2]
      rfl
  | @last left s events _ =>
      rw [s.pushBackEvents_next, Array.toList_push, Array.toList_append, Array.toList_append,
        List.any_append, List.any_append, List.any_append, hevents, any_ofWhole_nextEvents]
      rfl

theorem chain_tellsOfParts (level : Level) (ho : operand.TellsOfParts) :
    (chain level operand).TellsOfParts := by
  intro s
  rcases chain_cases level operand s with ⟨left, -, hextends⟩ | ⟨cause, -, hrun⟩
  · exact hextends.tellsOfParts ho (ho s)
  · rw [hrun]
    exact ho s

theorem factorOver_tellsOfParts {inner : Option Rule}
    (hi : ∀ expression ∈ inner, expression.TellsOfParts) : (factorOver inner).TellsOfParts := by
  intro s
  rcases factorOver_cases inner s with ⟨value, -, hrun⟩ | ⟨-, hrun⟩ | ⟨-, -, hrun⟩
  · rw [hrun, Array.toList_push, List.any_append, any_ofWhole_nextEvents]
    rfl
  · rw [hrun, Outcome.after, Array.toList_append, List.any_append, any_ofWhole_nextEvents,
      Bool.false_or]
    cases inner with
    | none => rfl
    | some expression =>
        have hbody := hi expression rfl s.next.2
        rcases group_cases expression s.next.2 with
          ⟨cause, -, hgroup⟩ | ⟨e, -, -, hgroup⟩ | ⟨e, -, -, hgroup⟩
        · rw [hgroup]
          exact hbody
        · rw [hgroup, Array.toList_push, Array.toList_append, List.any_append, List.any_append,
            hbody, any_ofWhole_nextEvents]
          rfl
        · rw [hgroup, Array.toList_append, List.any_append, hbody, any_ofWhole_nextEvents]
          rfl
  · rw [hrun]
    exact any_ofWhole_nextEvents s

/-- A rejected source leaves no trace of its end. -/
theorem any_ofWhole_evaluationEvents {cause : ParseError} (he : parse source = .error cause) :
    (evaluationEvents source).toList.any Event.ofWhole = false := by
  have hevents : evaluationEvents source = (input (Scanner.ofSource source)).events := by
    have hresult : (input (Scanner.ofSource source)).result = .error cause := he
    simp only [evaluationEvents, hresult]
  have hexpression : (expression 0).TellsOfParts :=
    rule_induction (fun level _ => chain_tellsOfParts level) (fun _ => factorOver_tellsOfParts) 0
      .expression
  rw [hevents]
  rw [parse] at he
  rcases input_cases (Scanner.ofSource source) with
    ⟨cause, -, hrun⟩ | ⟨e, -, -, hrun⟩ | ⟨e, -, -, hrun⟩
  · rw [hrun]
    exact hexpression _
  · simp [hrun] at he
  · rw [hrun]
    exact hexpression _

/-! ## Whole traces -/

/-- The trace of a source with so many lexemes of each kind and this tree. -/
structure AccountsFor (source : String) (e : Expr) (tally : Tally) (events : List Event) :
    Prop where
  matched : messageCount "matched" events =
    tally.numerals + tally.groups + tally.products + 2 * tally.sums + 3 * tally.groups
  pushedBack : messageCount "push back" events = tally.sums + 2 * tally.groups + 2
  unmatched : messageCount "no pattern matched" events = 0
  numbers : messageCount "factor result (number)" events = tally.numerals ∧
    events.filterMap Event.number? = e.literals
  factors : messageCount "factor result" events = tally.groups
  terms : messageCount "term result" events = tally.sums + tally.groups + 1
  expressions : messageCount "expression result" events = tally.groups + 1
  whole : messageCount "parse result" events = 1 ∧ messageCount "evaluated" events = 1 ∧
    [.parsed e, .evaluated source e.evaluate] <:+ events
  completes : ∀ earlier event later, earlier ++ event :: later = events →
    ∀ category : Category, event.message = category.resultMessage →
      ∃ t name stack, event.fields = [(name, .text t.text)] ∧
        replay? [] earlier = some stack ∧ Completes source stack category t

/-- The trace accounts for an accepted source, and tells of no tree or value of a rejected one. -/
structure AccountsForTrace (source : String) (events : List Event) : Prop where
  accepted : ∀ e, parse source = .ok e →
    AccountsFor source e (.ofLexemes ((lexemes source).map Placed.lexeme)) events
  rejected : ∀ cause, parse source = .error cause →
    ∀ event ∈ events, event.message ≠ "parse result" ∧ event.message ≠ "evaluated"

theorem accountsFor_of_parse {e : Expr} (he : parse source = .ok e) :
    AccountsFor source e (.ofLexemes ((lexemes source).map Placed.lexeme))
      (evaluationEvents source).toList where
  matched := by
    rw [messageCount_evaluationEvents he]
    simp [Lexeme.share, lastShare]
    ring
  pushedBack := by
    rw [messageCount_evaluationEvents he]
    simp [Lexeme.share, lastShare]
    ring
  unmatched := by
    rw [messageCount_evaluationEvents he]
    simp [Lexeme.share, lastShare]
  numbers := by
    refine ⟨?_, (map_message_evaluationEvents he).2⟩
    rw [messageCount_evaluationEvents he]
    simp [Lexeme.share, lastShare]
  factors := by
    rw [messageCount_evaluationEvents he]
    simp [Lexeme.share, lastShare]
  terms := by
    rw [messageCount_evaluationEvents he]
    simp [Lexeme.share, lastShare]
  expressions := by
    rw [messageCount_evaluationEvents he]
    simp [Lexeme.share, lastShare]
  whole := by
    rw [messageCount_evaluationEvents he, messageCount_evaluationEvents he]
    simp only [Lexeme.share, lastShare]
    exact ⟨by simp, by simp, _, (evaluationEvents_of_parse he).2.2.symm⟩
  completes := by
    intro earlier event later hevents category hmessage
    obtain ⟨last, hleads⟩ := leads_evaluationEvents_reported he
    obtain ⟨t, name, hresult, hfields⟩ := exists_result_of_message hmessage
    rw [← hevents] at hleads
    obtain ⟨stack, next, hstack, -, hreported⟩ := hleads.exists_moment
    exact ⟨t, name, stack, hfields, hstack, hreported.completes he hresult⟩

/-- What an evaluation traces is what its source has it trace, no more and no less. -/
theorem accountsForTrace (source : String) :
    AccountsForTrace source (evaluationEvents source).toList := by
  refine ⟨fun e he => accountsFor_of_parse he, ?_⟩
  intro cause he event hevent
  have hwhole := any_ofWhole_evaluationEvents he
  rw [List.any_eq_false] at hwhole
  have hpart := hwhole event hevent
  cases event with
  | parsed e => exact absurd rfl hpart
  | evaluated source value => exact absurd rfl hpart
  | chain level left => cases level <;> simp [Event.message]
  | _ => simp [Event.message]

end FourFunction.Grammar
