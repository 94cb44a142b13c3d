import FourFunction.Proofs.Trace.Shares

/-! The trees in the trace of an accepted source. Each is derived from the lexemes on top of the
stack, which are a whole phrase: none that is part of a longer phrase of its category. -/

namespace FourFunction

open Cursor (Reads)

variable {s : Scanner}

/-- More may be known of every step along the same stacks. -/
theorem Leads.imp {good better : List Placed → Event → List Placed → Prop}
    {before after : List Placed} {events : List Event} (h : Leads good before events after)
    (himp : ∀ event ∈ events, ∀ stack next, good stack event next → better stack event next) :
    Leads better before events after := by
  induction h with
  | done => exact .done _
  | next hreplay hgood _ ih =>
      refine .next hreplay (himp _ (by simp) _ _ hgood) (ih ?_)
      intro event hevent
      exact himp event (List.mem_cons_of_mem _ hevent)

namespace Grammar

/-! ## Whole phrases -/

/-- The next token is no operator that would continue a phrase of the category. -/
def Category.EndsAt (s : Scanner) : Category → Prop
  | .expression => ∀ op, s.next.1 ≠ .symbol (.operator op)
  | .term => ∀ op, op = .mul ∨ op = .div → s.next.1 ≠ .symbol (.operator op)
  | .factor => True

/-- A tree in the trace is derived from the lexemes on top of the stack, which are a whole phrase so
far as can be seen from the next token. -/
def Reported (source : String) (stack : List Placed) (event : Event) (_ : List Placed) : Prop :=
  ∀ category t, event.result? = some (category, t) →
    ∃ before span s, before ++ span = stack ∧ Reads (Cursor.first source.toList) stack s.cursor ∧
      Derives maxNesting category (span.map Placed.lexeme) t ∧
      (∀ p ∈ before.getLast?, category.StartsAfter p.lexeme) ∧ category.EndsAt s ∧
      (category = .factor → Grouped (span.map Placed.lexeme))

variable {source : String} {level : Level} {operand : Rule}

theorem reported_of_result?_eq_none {stack after : List Placed} {event : Event}
    (h : event.result? = none) : Reported source stack event after := by
  intro category t he
  simp [h] at he

/-- Nothing is reported before a phrase ends. -/
theorem result?_eq_none_of_mem {event : Event}
    (h : event ∈ (s.nextEvents ++ s.next.2.pushBackEvents).toList) : event.result? = none := by
  rw [s.pushBackEvents_next, Array.toList_append, List.mem_append] at h
  rcases h with hnext | hback
  · rcases s.nextEvents_cases with hevents | hevents | ⟨p, hevents⟩
    · simp [hevents] at hnext
    · rw [hevents] at hnext
      rw [List.mem_singleton.mp hnext]
      rfl
    · rw [hevents] at hnext
      rw [List.mem_singleton.mp hnext]
      rfl
  · rw [List.mem_singleton.mp hback]
    rfl

theorem leads_next_pushBack_reported {stack : List Placed}
    (h : Reads (Cursor.first source.toList) stack s.cursor) :
    Leads (Reported source) stack (s.nextEvents ++ s.next.2.pushBackEvents).toList stack := by
  apply (leads_next_pushBack h).imp
  intro event hevent stack next _
  exact reported_of_result?_eq_none (result?_eq_none_of_mem hevent)

theorem leads_next_reported {stack : List Placed} {p : Placed}
    (hread : Reads s.cursor [p] s.next.2.cursor) :
    Leads (Reported source) stack s.nextEvents.toList (stack ++ [p]) := by
  rw [nextEvents_of_reads hread]
  exact .single rfl (reported_of_result?_eq_none rfl)

/-- More groups may be open at once than are. -/
theorem Derives.weaken {groups more : Nat} {category : Category} {ls : List Lexeme} {e : Expr}
    (h : Derives groups category ls e) (hle : groups ≤ more) : Derives more category ls e := by
  induction h generalizing more with
  | number n => exact .number n
  | group _ ih =>
      obtain ⟨more, rfl⟩ := Nat.exists_eq_add_of_le' (Nat.le_of_add_left_le hle)
      exact .group (ih (Nat.le_of_succ_le_succ hle))
  | factor _ ih => exact .factor (ih hle)
  | product hop _ _ ihl ihr => exact .product hop (ihl hle) (ihr hle)
  | term _ ih => exact .term (ih hle)
  | sum hop _ _ ihl ihr => exact .sum hop (ihl hle) (ihr hle)

theorem Category.StartsAfter.ofOperand {l : Lexeme} (h : (ofChain level).StartsAfter l) :
    (ofOperand level).StartsAfter l := by
  cases level with
  | sum => exact .inl h
  | product => trivial

theorem Category.startsAfter_operator {op : Operator} (h : op ∈ level.operators) :
    (ofOperand level).StartsAfter (.symbol (.operator op)) := by
  cases level with
  | sum => rcases Level.mem_operators_sum.mp h with rfl | rfl <;> exact .inr rfl
  | product => trivial

/-- A rule that finds a tree where a phrase of its category may start derives the tree from the
lexemes that it passes over, and all trees in its trace are reported rightly. -/
def Rule.Reports (source : String) (groups : Nat) (category : Category) (r : Rule) : Prop :=
  ∀ s stack e, Reads (Cursor.first source.toList) stack s.cursor →
    (∀ p ∈ stack.getLast?, category.StartsAfter p.lexeme) → (r.run s).result = .ok e →
    ∃ ps, Reads s.cursor ps (r.run s).scanner.cursor ∧
      Derives groups category (ps.map Placed.lexeme) e ∧
      Leads (Reported source) stack (r.run s).events.toList (stack ++ ps)

variable {groups : Nat}

theorem Extends.reports (hg : groups ≤ maxNesting)
    (ho : operand.Reports source groups (.ofOperand level)) {left : Expr} {events : Array Event}
    {o : Outcome} (h : Extends level operand left s events o) {start : List Placed} {c : Cursor}
    (hc : Reads (Cursor.first source.toList) start c)
    (hstart : ∀ p ∈ start.getLast?, (Category.ofChain level).StartsAfter p.lexeme) :
    ∀ ps, Reads c ps s.cursor → Derives groups (.ofChain level) (ps.map Placed.lexeme) left →
      Leads (Reported source) start events.toList (start ++ ps) →
      ∀ e, o.result = .ok e → (Category.ofChain level).EndsAt o.scanner →
        ∃ qs, Reads c qs o.scanner.cursor ∧
          Derives groups (.ofChain level) (qs.map Placed.lexeme) e ∧
          Leads (Reported source) start o.events.toList (start ++ qs) := by
  induction h with
  | @next left right s events op o hop hright _ ih =>
      intro ps hps hd hleads
      obtain ⟨hsymbol, hlevel⟩ := Token.operatorOf?_eq_some hop
      obtain ⟨place, hread⟩ := Scanner.reads_next_symbol hsymbol
      have hmid := (hc.append hps).append hread
      obtain ⟨qs, hqs, hdright, hoperand⟩ := ho s.next.2 _ right hmid
        (by simpa using Category.startsAfter_operator hlevel) hright
      apply ih _ ((hps.append hread).append hqs)
      · simpa using Derives.chain hlevel hd hdright
      · rw [Array.toList_append, Array.toList_append]
        have hnext := hleads.append (leads_next_reported hread)
        simpa using hnext.append hoperand
  | failed _ _ => simp
  | @last left s events _ =>
      intro ps hps hd hleads e he hends
      obtain rfl := Except.ok.inj he
      refine ⟨ps, hps, hd, ?_⟩
      rw [Array.toList_push, Array.append_assoc, Array.toList_append]
      apply (hleads.append (leads_next_pushBack_reported (hc.append hps))).concat rfl
      intro category t ht
      obtain ⟨rfl, rfl⟩ : category = .ofChain level ∧ t = left := by
        cases level <;> simpa [Event.result?, Category.ofChain, eq_comm] using ht
      refine ⟨start, ps, ⟨s.cursor, .spent⟩, rfl, hc.append hps, hd.weaken hg, hstart, hends, ?_⟩
      cases level <;> simp [Category.ofChain]

theorem chain_reports (hg : groups ≤ maxNesting) (level : Level)
    (ho : operand.Reports source groups (.ofOperand level))
    (hends : ∀ s e, ((chain level operand).run s).result = .ok e →
      (Category.ofChain level).EndsAt ((chain level operand).run s).scanner) :
    (chain level operand).Reports source groups (.ofChain level) := by
  intro s stack e hstack hstart he
  rcases chain_cases level operand s with ⟨left, hleft, hextends⟩ | ⟨cause, hc, hrun⟩
  · obtain ⟨ps, hps, hd, hleads⟩ :=
      ho s stack left hstack (fun p hp => (hstart p hp).ofOperand) hleft
    exact hextends.reports hg ho hstack hstart ps hps hd.single hleads e he (hends s e he)
  · simp [hrun, hc] at he

theorem factorOver_reports (hg : groups ≤ maxNesting) {inner : Option Rule}
    (hi : ∀ expression ∈ inner, ∃ g, g + 1 = groups ∧ expression.Reports source g .expression) :
    (factorOver inner).Reports source groups .factor := by
  intro s stack e hstack _ he
  rcases factorOver_cases inner s with ⟨value, hn, hrun⟩ | ⟨hn, hrun⟩ | ⟨-, -, hrun⟩
  · obtain ⟨n, start, hread, rfl⟩ := Scanner.reads_next_number hn
    rw [hrun] at he ⊢
    obtain rfl := Except.ok.inj he
    refine ⟨_, hread, .number n, ?_⟩
    rw [Array.toList_push]
    exact (leads_next_reported hread).concat rfl (reported_of_result?_eq_none rfl)
  · obtain ⟨start, hread⟩ := Scanner.reads_next_symbol hn
    rw [hrun] at he ⊢
    change (group inner s.next.2).result = .ok e at he
    cases inner with
    | none => simp [group] at he
    | some expression =>
        obtain ⟨g, rfl, hreports⟩ := hi expression rfl
        rcases group_cases expression s.next.2 with
          ⟨cause, -, hgroup⟩ | ⟨body, hbody, hclose, hgroup⟩ | ⟨body, -, -, hgroup⟩
        · simp [hgroup] at he
        · obtain ⟨ps, hps, hd, hleads⟩ := hreports s.next.2 _ body (hstack.append hread)
            (by simp [Category.StartsAfter]) hbody
          obtain ⟨stop, hlast⟩ := Scanner.reads_next_symbol hclose
          have hwhole := (hread.append hps).append hlast
          rw [hgroup] at he ⊢
          obtain rfl := Except.ok.inj he
          rw [List.append_assoc] at hwhole
          have hlexemes : ([⟨.symbol .leftParen, start⟩] ++
              (ps ++ [⟨.symbol .rightParen, stop⟩]) : List Placed).map Placed.lexeme =
                .symbol .leftParen :: ps.map Placed.lexeme ++ [.symbol .rightParen] := by simp
          have hderives := Derives.group hd
          rw [← hlexemes] at hderives
          refine ⟨_, hwhole, hderives, ?_⟩
          rw [Outcome.after, Array.toList_append, Array.toList_push, Array.toList_append,
            ← List.append_assoc, ← List.append_assoc, ← List.append_assoc, ← List.append_assoc]
          apply (((leads_next_reported hread).append hleads).append
            (leads_next_reported hlast)).concat rfl
          intro category t ht
          obtain ⟨rfl, rfl⟩ : category = .factor ∧ t = body := by
            simpa [Event.result?, eq_comm] using ht
          refine ⟨stack, _, (expression.run s.next.2).scanner.next.2, ?_, ?_,
            hderives.weaken hg, by simp [Category.StartsAfter], trivial,
            fun _ => ⟨_, hlexemes⟩⟩
          · simp
          · simpa using hstack.append hwhole
        · simp [hgroup] at he
  · simp [hrun] at he

theorem expressionOver_reports (hg : groups ≤ maxNesting) {factor : Rule}
    (hf : factor.Reports source groups .factor) :
    (expressionOver factor).Reports source groups .expression := by
  have hterm := chain_reports hg .product hf fun s e he op hop => term_next_ne_product he hop
  exact chain_reports hg .sum hterm fun s e he => expressionOver_next_ne_operator he

theorem factorWithin_reports (source : String) {groups : Nat} (hg : groups ≤ maxNesting) :
    (factorWithin groups).Reports source groups .factor := by
  induction groups with
  | zero => exact factorOver_reports hg (by simp)
  | succ groups ih =>
      apply factorOver_reports hg
      intro expression hexpression
      obtain rfl := Option.some.inj hexpression
      exact ⟨groups, rfl, expressionOver_reports (Nat.le_of_succ_le hg) (ih (Nat.le_of_succ_le hg))⟩

/-! ## Ends of phrases -/

/-- After a number or a closing parenthesis an operator comes next. -/
theorem Stage.mode_of_advance {stage next : Stage} {token : Token}
    (h : stage.advance token = some next)
    (ht : (∃ value, token = .number value) ∨ token = .symbol .rightParen) :
    next.mode = .operator := by
  obtain ⟨mode, opened⟩ := stage
  rcases ht with ⟨value, rfl⟩ | rfl
  · cases mode with
    | operand =>
        obtain rfl := Option.some.inj h
        rfl
    | operator => cases opened <;> simp [advance] at h
  · cases mode with
    | operand => simp [advance] at h
    | operator =>
        cases opened with
        | zero => simp [advance] at h
        | succ opened =>
            obtain rfl := Option.some.inj h
            rfl

theorem Derives.exists_last {category : Category} {ls : List Lexeme} {e : Expr}
    (h : Derives groups category ls e) :
    ∃ init l, ls = init ++ [l] ∧
      ((∃ value, l.token = .number value) ∨ l.token = .symbol .rightParen) := by
  induction h with
  | number n => exact ⟨[], _, rfl, .inl ⟨n.value, rfl⟩⟩
  | group _ _ => exact ⟨_, _, rfl, .inr rfl⟩
  | factor _ ih => exact ih
  | @product _ ls ms left right op _ _ _ _ ihr =>
      obtain ⟨init, l, rfl, hl⟩ := ihr
      exact ⟨ls ++ .symbol (.operator op) :: init, l, by simp, hl⟩
  | term _ ih => exact ih
  | @sum _ ls ms left right op _ _ _ _ ihr =>
      obtain ⟨init, l, rfl, hl⟩ := ihr
      exact ⟨ls ++ .symbol (.operator op) :: init, l, by simp, hl⟩

theorem Derives.mode_of_through {category : Category} {ls : List Lexeme} {e : Expr}
    {stage next : Stage} (h : Derives groups category ls e)
    (hthrough : stage.through ls = some next) :
    next.mode = .operator := by
  obtain ⟨init, l, rfl, hl⟩ := h.exists_last
  rw [Stage.through_append] at hthrough
  obtain ⟨mid, -, hlast⟩ := Option.bind_eq_some_iff.mp hthrough
  rw [Stage.through_cons] at hlast
  obtain ⟨stage', hadvance, hnext⟩ := Option.bind_eq_some_iff.mp hlast
  obtain rfl := Option.some.inj hnext
  exact Stage.mode_of_advance hadvance hl

/-- In an accepted source an operator or the end of a group follows a phrase. -/
theorem Derives.token_of_through {category : Category} {ls more : List Lexeme} {l : Lexeme}
    {e : Expr} {stage next : Stage} (h : Derives groups category ls e)
    (hthrough : stage.through (ls ++ l :: more) = some next) :
    (∃ op, l.token = .symbol (.operator op)) ∨ l.token = .symbol .rightParen := by
  rw [Stage.through_append] at hthrough
  obtain ⟨mid, hmid, hrest⟩ := Option.bind_eq_some_iff.mp hthrough
  have hmode := h.mode_of_through hmid
  by_contra hno
  rw [not_or, not_exists] at hno
  obtain ⟨mode, opened⟩ := mid
  obtain rfl : mode = .operator := hmode
  rw [Stage.through_cons, Stage.advance_operator_eq_none hno.1 (fun ht => absurd ht hno.2)] at hrest
  simp at hrest

/-- What follows a phrase that can be seen to end in an accepted source. -/
theorem Category.EndsAt.endsBefore {category : Category} {l : Lexeme} (h : category.EndsAt s)
    (hnext : s.next.1 = l.token)
    (hl : (∃ op, l.token = .symbol (.operator op)) ∨ l.token = .symbol .rightParen) :
    category.EndsBefore l := by
  rcases hl with ⟨op, hop⟩ | hclose
  · rw [hop] at hnext
    obtain rfl := Lexeme.eq_symbol_of_token hop
    cases category with
    | expression => exact absurd hnext (h op)
    | term =>
        cases op with
        | add => exact .inr rfl
        | sub => exact .inr rfl
        | mul => exact absurd hnext (h .mul (.inl rfl))
        | div => exact absurd hnext (h .div (.inr rfl))
    | factor => trivial
  · obtain rfl := Lexeme.eq_symbol_of_token hclose
    cases category with
    | expression => rfl
    | term => exact .inl rfl
    | factor => trivial

/-- The next token is that of the next lexeme, the end of the input if that is unmatched. -/
theorem next_eq_token {p : Placed} (h : p ∈ s.cursor.lexemes.head?) :
    s.next.1 = p.lexeme.token := by
  cases hr : s.cursor.read? with
  | none => simp [Cursor.lexemes_of_read?_eq_none hr] at h
  | some found =>
      rw [Cursor.lexemes_of_read?_eq_some hr, List.head?_cons, Option.mem_some_iff] at h
      subst h
      simp only [Scanner.next, hr, Lexeme.token?_eq]
      cases found.1.lexeme <;> rfl

/-- All trees in the trace of an accepted source belong to whole phrases. -/
theorem Reported.completes {e : Expr} (he : parse source = .ok e) {stack next : List Placed}
    {event : Event} (h : Reported source stack event next) {category : Category} {t : Expr}
    (ht : event.result? = some (category, t)) : Completes source stack category t := by
  obtain ⟨before, span, s, rfl, hreads, hd, hstarts, hends, hgroup⟩ := h category t ht
  have hlexemes : before ++ span ++ s.cursor.lexemes = lexemes source := hreads.lexemes_eq.symm
  refine ⟨before, span, s.cursor.lexemes, rfl, hlexemes, hd, hstarts, ?_, hgroup⟩
  intro p hp
  apply hends.endsBefore (next_eq_token hp)
  obtain ⟨more, hmore⟩ := List.head?_eq_some_iff.mp hp
  have hthrough := (derives_of_parse he).through 0 (by omega)
  rw [← hlexemes, hmore, List.map_append, List.map_append, List.append_assoc,
    Stage.through_append] at hthrough
  obtain ⟨mid, -, hrest⟩ := Option.bind_eq_some_iff.mp hthrough
  exact hd.token_of_through hrest

theorem leads_evaluationEvents_reported {e : Expr} (he : parse source = .ok e) :
    ∃ last, Leads (Reported source) [] (evaluationEvents source).toList last := by
  obtain ⟨hresult, -, hevents⟩ := evaluationEvents_of_parse he
  have hreports := expressionOver_reports (Nat.le_refl _)
    (factorWithin_reports source (Nat.le_refl maxNesting))
  obtain ⟨ps, -, -, hleads⟩ :=
    hreports (Scanner.ofSource source) [] e (.done _) (by simp) hresult
  refine ⟨ps, ?_⟩
  rw [hevents]
  apply hleads.append
  apply Leads.next rfl (reported_of_result?_eq_none rfl)
  exact .single rfl (reported_of_result?_eq_none rfl)

theorem exists_result_of_message {event : Event} {category : Category}
    (h : event.message = category.resultMessage) :
    ∃ t name, event.result? = some (category, t) ∧ event.fields = [(name, .text t.text)] := by
  cases event with
  | group e =>
      cases category <;>
        simp_all [Event.message, Category.resultMessage, Event.result?, Event.fields]
  | chain level left =>
      cases level <;> cases category <;>
        simp_all [Event.message, Category.resultMessage, Event.result?, Event.fields]
  | _ => cases category <;> simp [Event.message, Category.resultMessage] at h

end Grammar

end FourFunction
