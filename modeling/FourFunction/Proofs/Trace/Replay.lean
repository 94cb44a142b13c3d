import FourFunction.Calculation
import FourFunction.Proofs.Grammar.Places
import FourFunction.Trace.Replay

/-! The trace of an evaluation, replayed. At every moment the stack holds the first lexemes of the
source up to where the scanner stands, so what is read or given back is what the trace says. -/

namespace FourFunction

open Text
open Cursor (Reads)

/-! ## Stacks along a trace -/

/-- The events lead from one stack to another, and `good` holds of each of them and of the stacks
before and after it. -/
inductive Leads (good : List Placed → Event → List Placed → Prop) :
    List Placed → List Event → List Placed → Prop where
  | done (stack : List Placed) : Leads good stack [] stack
  | next {before mid after : List Placed} {event : Event} {events : List Event} :
      event.replay? before = some mid → good before event mid → Leads good mid events after →
      Leads good before (event :: events) after

namespace Leads

variable {good : List Placed → Event → List Placed → Prop} {before mid after : List Placed}
  {events more : List Event} {event : Event}

theorem single (hreplay : event.replay? before = some after) (hgood : good before event after) :
    Leads good before [event] after :=
  .next hreplay hgood (.done after)

theorem append (h : Leads good before events mid) (h' : Leads good mid more after) :
    Leads good before (events ++ more) after := by
  induction h with
  | done => exact h'
  | next hreplay hgood _ ih => exact .next hreplay hgood (ih h')

theorem concat (h : Leads good before events mid) (hreplay : event.replay? mid = some after)
    (hgood : good mid event after) : Leads good before (events ++ [event]) after :=
  h.append (.single hreplay hgood)

theorem replay?_eq (h : Leads good before events after) : replay? before events = some after := by
  induction h with
  | done => rfl
  | next hreplay _ _ ih => rw [replay?, List.foldlM_cons, hreplay]; exact ih

/-- Every event of the trace comes at a moment at which the stack is known. -/
theorem exists_moment {earlier later : List Event}
    (h : Leads good before (earlier ++ event :: later) after) :
    ∃ stack next, replay? before earlier = some stack ∧ event.replay? stack = some next ∧
      good stack event next := by
  induction earlier generalizing before with
  | nil =>
      cases h with
      | next hreplay hgood _ => exact ⟨before, _, rfl, hreplay, hgood⟩
  | cons first earlier ih =>
      cases h with
      | next hreplay _ hrest =>
          obtain ⟨stack, next, hstack, hnext, hgood⟩ := ih hrest
          refine ⟨stack, next, ?_, hnext, hgood⟩
          rw [replay?, List.foldlM_cons, hreplay]
          exact hstack

end Leads

/-! ## Lexemes up to a place -/

theorem stackStop_eq {source : String} {stack : List Placed} {c : Cursor}
    (h : Reads (Cursor.first source.toList) stack c) : stackStop stack = c.offset :=
  h.offset_eq.symm

/-- The lexemes up to a place are those of one pass that end there. -/
theorem Cursor.Reads.eq_of_reads {c last : Cursor} {ps qs : List Placed} (h : Reads c ps last)
    (h' : Reads c qs last) : ps = qs := by
  have hlexemes := h.lexemes_eq.symm.trans h'.lexemes_eq
  exact List.append_cancel_right hlexemes

theorem Cursor.Reads.start_lt {c last : Cursor} {ps : List Placed} (h : Reads c ps last) :
    ∀ p ∈ ps, p.start < last.offset := by
  induction h with
  | done => simp
  | @next c mid last p ps hr hp hrest ih =>
      intro q hq
      rcases List.mem_cons.mp hq with rfl | hq
      · have hlt := Cursor.skipBlanks_offset_lt hr
        have hle := hrest.offset_le
        have hstart := (Cursor.read?_eq_some hr).1
        omega
      · exact ih q hq

theorem Cursor.takeWhile_lexemes_eq_nil {c : Cursor} {p : Placed → Bool}
    (h : ∀ q mid, c.read? = some (q, mid) → p q = false) : c.lexemes.takeWhile p = [] := by
  cases hr : c.read? with
  | none => rw [Cursor.lexemes_of_read?_eq_none hr, List.takeWhile_nil]
  | some found =>
      rw [Cursor.lexemes_of_read?_eq_some hr, List.takeWhile_cons_of_neg (by simp [h _ _ hr])]

/-- What comes after the lexemes read is matched up to the first that is not. -/
theorem matchedLexemes_eq_append {source : String} {ps : List Placed} {c : Cursor}
    (h : Reads (Cursor.first source.toList) ps c) :
    matchedLexemes source = ps ++ c.lexemes.takeWhile fun p => p.lexeme.isMatched := by
  have hlexemes : lexemes source = ps ++ c.lexemes := h.lexemes_eq
  rw [matchedLexemes, hlexemes, List.takeWhile_append_of_pos (by simpa using h.matched)]

/-! ## Tokens -/

/-- What an event says agrees with the source, and the stacks around it hold first lexemes of the
source. -/
def Replayed (source : String) (before : List Placed) (event : Event) (after : List Placed) :
    Prop :=
  before <+: matchedLexemes source ∧ after <+: matchedLexemes source ∧
    event.Agrees source before after

variable {source : String} {stack : List Placed} {s : Scanner}

/-- An event of a rule that succeeds leaves the stack alone. -/
theorem replayed_of_replay?_eq_self {event : Event}
    (h : Reads (Cursor.first source.toList) stack s.cursor)
    (hagrees : event.Agrees source stack stack) : Replayed source stack event stack :=
  ⟨isPrefix_matchedLexemes h, isPrefix_matchedLexemes h, hagrees⟩

theorem nextEvents_of_reads {p : Placed} {mid : Cursor} (h : Reads s.cursor [p] mid) :
    s.nextEvents = #[.matched p] := by
  have hr := h.read?_single
  have hp := h.isMatched_single
  obtain ⟨l, start⟩ := p
  cases l with
  | numeral n => simp [Scanner.nextEvents, hr]
  | symbol symbol => simp [Scanner.nextEvents, hr]
  | unmatched c => simp [Lexeme.isMatched] at hp

theorem nextEvents_of_endOfInput (h : s.next.1 = .endOfInput) :
    s.nextEvents = #[] ∨ s.nextEvents = #[.unmatched s.cursor] := by
  cases hr : s.cursor.read? with
  | none => exact .inl (by simp [Scanner.nextEvents, hr])
  | some found =>
      obtain ⟨⟨l, start⟩, mid⟩ := found
      cases l with
      | numeral n => simp [Scanner.next, hr, Lexeme.token?] at h
      | symbol symbol => simp [Scanner.next, hr, Lexeme.token?] at h
      | unmatched c => exact .inr (by simp [Scanner.nextEvents, hr])

/-- Reading the next token puts at most one lexeme on the stack. -/
theorem exists_leads_next (h : Reads (Cursor.first source.toList) stack s.cursor) :
    ∃ last, Leads (Replayed source) stack s.nextEvents.toList last ∧
      Reads (Cursor.first source.toList) last s.next.2.cursor := by
  by_cases hend : s.next.1 = .endOfInput
  · have hstay : s.next.2.cursor = s.cursor := by rw [Scanner.next_eq_of_endOfInput hend]
    refine ⟨stack, ?_, hstay ▸ h⟩
    rcases nextEvents_of_endOfInput hend with hevents | hevents
    · rw [hevents]
      exact .done stack
    · rw [hevents]
      have hlies := h.liesIn (Cursor.liesIn_first source.toList)
      exact .single rfl (replayed_of_replay?_eq_self h ⟨(stackStop_eq h).symm, hlies.suffix?_eq⟩)
  · obtain ⟨p, hread, -⟩ := Scanner.reads_next hend
    have hafter := h.append hread
    refine ⟨stack ++ [p], ?_, hafter⟩
    rw [nextEvents_of_reads hread]
    have hlies := (h.liesIn (Cursor.liesIn_first source.toList)).skipBlanks
    obtain ⟨hstart, -, htext⟩ := Cursor.read?_eq_some hread.read?_single
    refine .single rfl ⟨isPrefix_matchedLexemes h, isPrefix_matchedLexemes hafter, ?_⟩
    exact ⟨_, by rw [hstart, hlies.suffix?_eq, Lexeme.read?_append htext]⟩

/-- A token that is read and given back leaves the stack as it was. -/
theorem leads_next_pushBack (h : Reads (Cursor.first source.toList) stack s.cursor) :
    Leads (Replayed source) stack (s.nextEvents ++ s.next.2.pushBackEvents).toList stack := by
  obtain ⟨last, hleads, hlast⟩ := exists_leads_next h
  have hback : s.next.2.pushBackEvents =
      #[.pushedBack s.next.2.cursor.offset s.cursor.offset] := by
    simp [Scanner.pushBackEvents]
  rw [Array.toList_append, hback]
  have hagrees : Event.Agrees source last stack
      (.pushedBack s.next.2.cursor.offset s.cursor.offset) :=
    ⟨(stackStop_eq hlast).symm, (stackStop_eq h).symm⟩
  refine hleads.concat ?_ ⟨isPrefix_matchedLexemes hlast, isPrefix_matchedLexemes h, hagrees⟩
  by_cases hend : s.next.1 = .endOfInput
  · have hstay : s.next.2.cursor = s.cursor := by rw [Scanner.next_eq_of_endOfInput hend]
    rw [hstay] at hlast ⊢
    rw [hlast.eq_of_reads h, Event.replay?, if_neg (Nat.lt_irrefl _)]
  · obtain ⟨p, hread, -⟩ := Scanner.reads_next hend
    have hlt := Nat.lt_of_le_of_lt s.cursor.offset_le_skipBlanks
      (Scanner.skipBlanks_offset_lt_next hend)
    rw [hlast.eq_of_reads (h.append hread), Event.replay?, if_pos hlt, if_neg (by simp),
      List.dropLast_concat]

/-! ## Rules -/

namespace Grammar

/-- From any stack that holds the lexemes up to the scanner, the trace of the rule leads to the one
that holds those up to where the rule leaves the scanner. -/
def Rule.Replays (source : String) (r : Rule) : Prop :=
  ∀ s stack, Reads (Cursor.first source.toList) stack s.cursor →
    ∃ last, Leads (Replayed source) stack (r.run s).events.toList last ∧
      Reads (Cursor.first source.toList) last (r.run s).scanner.cursor

theorem Extends.exists_leads {level : Level} {operand : Rule} (ho : operand.Replays source)
    {left : Expr} {events : Array Event} {o : Outcome} (h : Extends level operand left s events o)
    {start : List Placed} :
    ∀ stack, Leads (Replayed source) start events.toList stack →
      Reads (Cursor.first source.toList) stack s.cursor →
      ∃ last, Leads (Replayed source) start o.events.toList last ∧
        Reads (Cursor.first source.toList) last o.scanner.cursor := by
  induction h with
  | @next left right s events op o _ _ _ ih =>
      intro stack hleads hstack
      obtain ⟨mid, hnext, hmid⟩ := exists_leads_next hstack
      obtain ⟨last, hoperand, hlast⟩ := ho s.next.2 mid hmid
      apply ih last _ hlast
      rw [Array.toList_append, Array.toList_append]
      exact (hleads.append hnext).append hoperand
  | @failed left s events op cause _ _ =>
      intro stack hleads hstack
      obtain ⟨mid, hnext, hmid⟩ := exists_leads_next hstack
      obtain ⟨last, hoperand, hlast⟩ := ho s.next.2 mid hmid
      refine ⟨last, ?_, hlast⟩
      rw [Array.toList_append, Array.toList_append]
      exact (hleads.append hnext).append hoperand
  | @last left s events _ =>
      intro stack hleads hstack
      refine ⟨stack, ?_, hstack⟩
      rw [Array.toList_push, Array.append_assoc, Array.toList_append]
      exact (hleads.append (leads_next_pushBack hstack)).concat rfl
        (replayed_of_replay?_eq_self hstack trivial)

theorem chain_replays (level : Level) {operand : Rule} (ho : operand.Replays source) :
    (chain level operand).Replays source := by
  intro s stack hstack
  obtain ⟨last, hleads, hlast⟩ := ho s stack hstack
  rcases chain_cases level operand s with ⟨left, -, hextends⟩ | ⟨cause, -, hrun⟩
  · exact hextends.exists_leads ho last hleads hlast
  · rw [hrun]
    exact ⟨last, hleads, hlast⟩

theorem group_replays {inner : Option Rule} (hi : ∀ expression ∈ inner, expression.Replays source)
    (hstack : Reads (Cursor.first source.toList) stack s.cursor) :
    ∃ last, Leads (Replayed source) stack (group inner s).events.toList last ∧
      Reads (Cursor.first source.toList) last (group inner s).scanner.cursor := by
  cases inner with
  | none => exact ⟨stack, .done stack, hstack⟩
  | some expression =>
      obtain ⟨mid, hbody, hmid⟩ := hi expression rfl s stack hstack
      obtain ⟨last, hnext, hlast⟩ := exists_leads_next hmid
      rcases group_cases expression s with ⟨cause, -, hrun⟩ | ⟨e, -, -, hrun⟩ | ⟨e, -, -, hrun⟩
      · rw [hrun]
        exact ⟨mid, hbody, hmid⟩
      · rw [hrun]
        refine ⟨last, ?_, hlast⟩
        rw [Array.toList_push, Array.toList_append]
        exact (hbody.append hnext).concat rfl (replayed_of_replay?_eq_self hlast trivial)
      · rw [hrun]
        refine ⟨last, ?_, hlast⟩
        rw [Array.toList_append]
        exact hbody.append hnext

theorem factorOver_replays {inner : Option Rule}
    (hi : ∀ expression ∈ inner, expression.Replays source) :
    (factorOver inner).Replays source := by
  intro s stack hstack
  obtain ⟨mid, hnext, hmid⟩ := exists_leads_next hstack
  rcases factorOver_cases inner s with ⟨value, -, hrun⟩ | ⟨-, hrun⟩ | ⟨-, -, hrun⟩
  · rw [hrun]
    refine ⟨mid, ?_, hmid⟩
    rw [Array.toList_push]
    exact hnext.concat rfl (replayed_of_replay?_eq_self hmid trivial)
  · rw [hrun]
    obtain ⟨last, hgroup, hlast⟩ := group_replays hi hmid
    refine ⟨last, ?_, hlast⟩
    rw [Outcome.after, Array.toList_append]
    exact hnext.append hgroup
  · rw [hrun]
    exact ⟨mid, hnext, hmid⟩

theorem rule_replays (source : String) (depth : Nat) (category : Category) :
    (rule depth category).Replays source :=
  rule_induction (fun level _ => chain_replays level) (fun _ => factorOver_replays) depth category

theorem input_replays (source : String) :
    ∃ last, Leads (Replayed source) [] (input (Scanner.ofSource source)).events.toList last ∧
      Reads (Cursor.first source.toList) last (input (Scanner.ofSource source)).scanner.cursor := by
  obtain ⟨last, hleads, hlast⟩ :=
    rule_replays source 0 .expression (Scanner.ofSource source) [] (.done _)
  rcases input_cases (Scanner.ofSource source) with
    ⟨cause, -, hrun⟩ | ⟨e, -, -, hrun⟩ | ⟨e, -, -, hrun⟩
  · rw [hrun]
    exact ⟨last, hleads, hlast⟩
  · rw [hrun]
    refine ⟨last, ?_, hlast⟩
    rw [Array.toList_push]
    exact hleads.concat rfl (replayed_of_replay?_eq_self hlast trivial)
  · rw [hrun]
    exact ⟨last, hleads, hlast⟩

/-! ## The end of a trace -/

/-- Before the end of the input no lexeme is matched. -/
theorem takeWhile_lexemes_of_endOfInput (h : s.next.1 = .endOfInput) :
    s.cursor.lexemes.takeWhile (fun p => p.lexeme.isMatched) = [] := by
  apply Cursor.takeWhile_lexemes_eq_nil
  intro p mid hr
  rcases s.next_cases with ⟨p', mid', -, hp', hn⟩ | ⟨hnone, -⟩
  · rw [hn] at h
    exact absurd h (Lexeme.token_ne_endOfInput hp')
  · exact hnone p mid hr

/-- The lexemes up to an error about the last token are those that start no later than the error
lies. The last of them is the one at fault, unless what is at fault is the end of the input. -/
theorem AtLastToken.stack_eq {cause : ParseError} (hc : AtLastToken cause s)
    (hs : s.HasRead source) (hstack : Reads (Cursor.first source.toList) stack s.cursor) :
    ∃ e : SyntaxError, cause = .grammar e ∧
      stack = (matchedLexemes source).takeWhile (fun p => p.start ≤ e.offset) ∧
      (stack = matchedLexemes source ∨ ∃ p ∈ stack.getLast?, p.start = e.offset) := by
  obtain ⟨e, rfl, -, hstart, back, hback, -⟩ := hc
  obtain ⟨before, hbefore, -⟩ := Scanner.pushBack_eq_ok_iff.mp hback
  obtain ⟨⟨ps, hps⟩, hnext⟩ := hs.returnable before hbefore
  have hoffset : e.offset = before.skipBlanks.offset := by
    rw [← hstart, Scanner.tokenStart, hbefore]
  have hearlier : ∀ p ∈ ps, p.start ≤ e.offset := by
    intro p hp
    have hlt := hps.start_lt p hp
    have hle := before.offset_le_skipBlanks
    omega
  refine ⟨e, rfl, ?_⟩
  rw [matchedLexemes_eq_append hstack]
  by_cases hend : (Scanner.mk before .spent).next.1 = .endOfInput
  · have hstay : s.cursor = before := by rw [hnext, Scanner.next_eq_of_endOfInput hend]
    rw [hstay] at hstack ⊢
    rw [takeWhile_lexemes_of_endOfInput hend, List.append_nil, hstack.eq_of_reads hps]
    refine ⟨?_, .inl rfl⟩
    rw [List.takeWhile_eq_self_iff.mpr (by simpa using hearlier)]
  · obtain ⟨p, hread, -⟩ := Scanner.reads_next hend
    have hfault : p.start = e.offset :=
      (Cursor.read?_eq_some hread.read?_single).1.trans hoffset.symm
    have hlater := Scanner.skipBlanks_offset_lt_next hend
    rw [← hnext] at hread hlater
    rw [hstack.eq_of_reads (hps.append hread)]
    refine ⟨?_, .inr ⟨p, by simp, hfault⟩⟩
    rw [List.takeWhile_append_of_pos, List.takeWhile_takeWhile,
      Cursor.takeWhile_lexemes_eq_nil, List.append_nil]
    · intro q mid hq
      have hle := s.cursor.offset_le_skipBlanks
      rw [← (Cursor.read?_eq_some hq).1] at hle
      change before.skipBlanks.offset < s.cursor.offset at hlater
      simp only [decide_eq_false_iff_not, not_and]
      intro hq
      simp only [decide_eq_true_eq] at hq
      omega
    · intro q hq
      rcases List.mem_append.mp hq with hq | hq
      · exact decide_eq_true (hearlier q hq)
      · exact decide_eq_true (List.mem_singleton.mp hq ▸ hfault.le)

/-- Nothing is left to be read after a whole source. -/
theorem lexemes_eq_nil_of_input {e : Expr} (he : (input s).result = .ok e) :
    (input s).scanner.cursor.lexemes = [] := by
  rcases input_cases s with ⟨cause, hc, hrun⟩ | ⟨e', -, hx, hrun⟩ | ⟨e', -, -, hrun⟩
  · simp [hrun, hc] at he
  · rw [hrun]
    apply Cursor.lexemes_of_read?_eq_none
    exact (Cursor.read?_eq_none_iff _).mpr (List.isEmpty_iff.mp hx)
  · simp [hrun] at he

/-- How a trace and the scan of the source that it was made by hang together. At every event the
stack is known, and so are the places that the event names. At the end the stack holds all lexemes
of an accepted source, and those up to the fault of a refused one. -/
structure ReplaysScan (source : String) (events : List Event) : Prop where
  moment : ∀ earlier event later, earlier ++ event :: later = events →
    ∃ before after, replay? [] earlier = some before ∧ event.replay? before = some after ∧
      before <+: matchedLexemes source ∧ after <+: matchedLexemes source ∧
        event.Agrees source before after
  accepted : ∀ e, parse source = .ok e → replay? [] events = some (lexemes source)
  rejected : ∀ cause, parse source = .error (.grammar cause) →
    (∀ input offset, cause ≠ .unexpectedTrailingInput input offset) →
      ∃ stack, replay? [] events = some stack ∧
        stack = (matchedLexemes source).takeWhile (fun p => p.start ≤ cause.offset) ∧
        (stack = matchedLexemes source ∨ ∃ p ∈ stack.getLast?, p.start = cause.offset)

theorem exists_leads_evaluationEvents (source : String) :
    ∃ last, Leads (Replayed source) [] (evaluationEvents source).toList last ∧
      Reads (Cursor.first source.toList) last (input (Scanner.ofSource source)).scanner.cursor := by
  obtain ⟨last, hleads, hlast⟩ := input_replays source
  refine ⟨last, ?_, hlast⟩
  rw [evaluationEvents]
  split
  · rw [Array.toList_push]
    exact hleads.concat rfl (replayed_of_replay?_eq_self hlast trivial)
  · exact hleads

/-- The trace of an evaluation tells the scan of its source. -/
theorem replaysScan (source : String) : ReplaysScan source (evaluationEvents source).toList := by
  obtain ⟨last, hleads, hlast⟩ := exists_leads_evaluationEvents source
  have hreplay := hleads.replay?_eq
  refine ⟨?_, ?_, ?_⟩
  · intro earlier event later hevents
    rw [← hevents] at hleads
    exact hleads.exists_moment
  · intro e he
    rw [hreplay, lexemes, hlast.lexemes_eq, lexemes_eq_nil_of_input he, List.append_nil]
  · intro cause he hne
    have hread := Scanner.hasRead_reached source [.input]
    rcases input_result_eq_error he with hfault | ⟨hcause, -⟩
    · obtain ⟨e, hcause, hstack⟩ := hfault.stack_eq hread hlast
      obtain rfl := ParseError.grammar.inj hcause
      exact ⟨last, hreplay, hstack⟩
    · exact absurd (ParseError.grammar.inj hcause) (hne _ _)

end Grammar

end FourFunction
