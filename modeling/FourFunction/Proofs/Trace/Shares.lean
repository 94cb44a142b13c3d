import FourFunction.Proofs.Expr.RoundTrip
import FourFunction.Proofs.Trace.Replay
import FourFunction.Trace.Account

/-! The messages in the trace of an accepted source. Every lexeme has the same share of them,
wherever it stands, so they can be counted without looking at the derivation. -/

namespace FourFunction

open Cursor (Reads)

variable {s : Scanner}

/-! ## Shares -/

/-- The messages of reading the next token. -/
def Scanner.nextMessages (s : Scanner) : List String :=
  s.nextEvents.toList.map Event.message

theorem Scanner.nextMessages_of_ne (h : s.next.1 ≠ .endOfInput) : s.nextMessages = ["matched"] := by
  obtain ⟨p, hread, -⟩ := reads_next h
  rw [nextMessages, nextEvents_of_reads hread]
  rfl

/-- Reading the next token is told by one event, or by none at the end of the source. -/
theorem Scanner.nextEvents_cases (s : Scanner) :
    s.nextEvents = #[] ∨ s.nextEvents = #[.unmatched s.cursor] ∨
      ∃ p, s.nextEvents = #[.matched p] := by
  by_cases hend : s.next.1 = .endOfInput
  · rcases nextEvents_of_endOfInput hend with hevents | hevents
    · exact .inl hevents
    · exact .inr (.inl hevents)
  · obtain ⟨p, hread, -⟩ := reads_next hend
    exact .inr (.inr ⟨p, nextEvents_of_reads hread⟩)

theorem Scanner.filterMap_number?_nextEvents (s : Scanner) :
    s.nextEvents.toList.filterMap Event.number? = [] := by
  rcases s.nextEvents_cases with hevents | hevents | ⟨p, hevents⟩ <;> rw [hevents] <;> rfl

theorem Scanner.pushBackEvents_next (s : Scanner) :
    s.next.2.pushBackEvents = #[.pushedBack s.next.2.cursor.offset s.cursor.offset] := by
  simp [pushBackEvents]

namespace Grammar

/-- The messages after the last lexeme of a phrase. A chain ends when a token was read that does not
continue it, and so do the chains that are its operands. -/
def Category.ending (next : List String) : Category → List String
  | .factor => []
  | .term => next ++ ["push back", "term result"]
  | .expression =>
    next ++ ["push back", "term result"] ++ (next ++ ["push back", "expression result"])

theorem Category.ending_ofChain (level : Level) (next : List String) (left : Expr) :
    ending next (ofChain level) = ending next (ofOperand level) ++
      (next ++ ["push back", (Event.chain level left).message]) := by
  cases level <;> rfl

/-- An operator ends the operand before it and is read for the chain. -/
theorem Category.ending_ofOperand {level : Level} {op : Operator} (h : op ∈ level.operators) :
    ending ["matched"] (ofOperand level) ++ ["matched"] =
      Lexeme.share (.symbol (.operator op)) := by
  cases level with
  | sum => rcases Level.mem_operators_sum.mp h with rfl | rfl <;> rfl
  | product => rcases Level.mem_operators_product.mp h with rfl | rfl <;> rfl

/-- The trace of a tree tells of these lexemes. Each has its share, and the numbers are the literals
of the tree. -/
structure Tells (category : Category) (ls : List Lexeme) (e : Expr) (next : List String)
    (events : List Event) : Prop where
  messages_eq : events.map Event.message = ls.flatMap Lexeme.share ++ category.ending next
  numbers_eq : events.filterMap Event.number? = e.literals

/-- The traces of a rule tell of the lexemes that it has passed over. -/
def Rule.Tells (category : Category) (r : Rule) : Prop :=
  ∀ s e, (r.run s).result = .ok e →
    ∃ ps, Reads s.cursor ps (r.run s).scanner.cursor ∧
      Grammar.Tells category (ps.map Placed.lexeme) e (r.run s).scanner.nextMessages
        (r.run s).events.toList

variable {level : Level} {operand : Rule}

/-- An operator and another operand have their shares after those of the chain before them. -/
theorem Tells.next {ls ms : List Lexeme} {left right : Expr} {op : Operator}
    {last : List String} {events more : Array Event} (hop : op ∈ level.operators)
    (hs : s.nextMessages = ["matched"])
    (h : Tells (.ofOperand level) ls left s.nextMessages events.toList)
    (hright : Tells (.ofOperand level) ms right last more.toList) :
    Tells (.ofOperand level) (ls ++ .symbol (.operator op) :: ms) (.binary op left right) last
      (events ++ s.nextEvents ++ more).toList where
  messages_eq := by
    have hnext : s.nextEvents.toList.map Event.message = ["matched"] := hs
    rw [Array.toList_append, Array.toList_append, List.map_append, List.map_append, h.messages_eq,
      hright.messages_eq, hs, hnext, List.flatMap_append, List.flatMap_cons,
      ← Category.ending_ofOperand hop]
    simp only [List.append_assoc]
  numbers_eq := by
    rw [Array.toList_append, Array.toList_append, List.filterMap_append, List.filterMap_append,
      h.numbers_eq, hright.numbers_eq, s.filterMap_number?_nextEvents, List.append_nil,
      Expr.literals]

theorem Tells.last {ls : List Lexeme} {left : Expr} {events : Array Event}
    (h : Tells (.ofOperand level) ls left s.nextMessages events.toList) :
    Tells (.ofChain level) ls left s.nextMessages
      ((events ++ s.nextEvents ++ s.next.2.pushBackEvents).push (.chain level left)).toList where
  messages_eq := by
    have hnext : s.nextEvents.toList.map Event.message = s.nextMessages := rfl
    rw [s.pushBackEvents_next, Array.toList_push, Array.toList_append, Array.toList_append,
      List.map_append, List.map_append, List.map_append, h.messages_eq, hnext,
      Category.ending_ofChain level _ left]
    simp [Event.message]
  numbers_eq := by
    rw [s.pushBackEvents_next, Array.toList_push, Array.toList_append, Array.toList_append,
      List.filterMap_append, List.filterMap_append, List.filterMap_append, h.numbers_eq,
      s.filterMap_number?_nextEvents]
    simp [Event.number?]

/-- Parentheses have their shares before and after an expression. -/
theorem Tells.group {t : Scanner} {ls : List Lexeme} {e : Expr} {events : Array Event}
    (hs : s.nextMessages = ["matched"]) (ht : t.nextMessages = ["matched"])
    (h : Tells .expression ls e t.nextMessages events.toList) (next : List String) :
    Tells .factor (.symbol .leftParen :: ls ++ [.symbol .rightParen]) e next
      (s.nextEvents ++ (events ++ t.nextEvents).push (.group e)).toList where
  messages_eq := by
    have hopen : s.nextEvents.toList.map Event.message = ["matched"] := hs
    have hclose : t.nextEvents.toList.map Event.message = ["matched"] := ht
    rw [Array.toList_append, Array.toList_push, Array.toList_append, List.map_append,
      List.map_append, List.map_append, hopen, h.messages_eq, ht, hclose]
    simp [Category.ending, Lexeme.share, Event.message]
  numbers_eq := by
    rw [Array.toList_append, Array.toList_push, Array.toList_append, List.filterMap_append,
      List.filterMap_append, List.filterMap_append, h.numbers_eq, s.filterMap_number?_nextEvents,
      t.filterMap_number?_nextEvents]
    simp [Event.number?]

theorem Extends.tells (ho : operand.Tells (.ofOperand level)) {left : Expr} {events : Array Event}
    {o : Outcome} (h : Extends level operand left s events o) {c : Cursor} :
    ∀ ps, Reads c ps s.cursor →
      Tells (.ofOperand level) (ps.map Placed.lexeme) left s.nextMessages events.toList →
      ∀ e, o.result = .ok e → ∃ qs, Reads c qs o.scanner.cursor ∧
        Tells (.ofChain level) (qs.map Placed.lexeme) e o.scanner.nextMessages
          o.events.toList := by
  induction h with
  | @next left right s events op o hop hright _ ih =>
      intro ps hps htells
      obtain ⟨hsymbol, hlevel⟩ := Token.operatorOf?_eq_some hop
      obtain ⟨start, hread⟩ := Scanner.reads_next_symbol hsymbol
      obtain ⟨qs, hqs, hoperand⟩ := ho s.next.2 right hright
      have hmatched := s.nextMessages_of_ne (by simp [hsymbol])
      apply ih _ ((hps.append hread).append hqs)
      simpa using htells.next hlevel hmatched hoperand
  | failed _ _ => simp
  | last _ =>
      intro ps hps htells e he
      obtain rfl := Except.ok.inj he
      exact ⟨ps, hps, htells.last⟩

theorem chain_tells (level : Level) (ho : operand.Tells (.ofOperand level)) :
    (chain level operand).Tells (.ofChain level) := by
  intro s e he
  rcases chain_cases level operand s with ⟨left, hleft, hextends⟩ | ⟨cause, hc, hrun⟩
  · obtain ⟨ps, hps, htells⟩ := ho s left hleft
    exact hextends.tells ho ps hps htells e he
  · simp [hrun, hc] at he

theorem factorOver_tells {inner : Option Rule}
    (hi : ∀ expression ∈ inner, expression.Tells .expression) :
    (factorOver inner).Tells .factor := by
  intro s e he
  rcases factorOver_cases inner s with ⟨value, hn, hrun⟩ | ⟨hn, hrun⟩ | ⟨-, -, hrun⟩
  · have hmatched := s.nextMessages_of_ne (by simp [hn])
    obtain ⟨n, start, hread, rfl⟩ := Scanner.reads_next_number hn
    rw [hrun] at he ⊢
    obtain rfl := Except.ok.inj he
    refine ⟨_, hread, ?_, ?_⟩
    · rw [Array.toList_push, List.map_append]
      change s.nextMessages ++ _ = _
      rw [hmatched]
      rfl
    · rw [Array.toList_push, List.filterMap_append, s.filterMap_number?_nextEvents]
      rfl
  · have hopen := s.nextMessages_of_ne (by simp [hn])
    obtain ⟨start, hread⟩ := Scanner.reads_next_symbol hn
    rw [hrun] at he ⊢
    change (group inner s.next.2).result = .ok e at he
    cases inner with
    | none => simp [group] at he
    | some expression =>
        rcases group_cases expression s.next.2 with
          ⟨cause, -, hgroup⟩ | ⟨body, hbody, hclose, hgroup⟩ | ⟨body, -, -, hgroup⟩
        · simp [hgroup] at he
        · obtain ⟨ps, hps, htells⟩ := hi expression rfl s.next.2 body hbody
          obtain ⟨stop, hlast⟩ := Scanner.reads_next_symbol hclose
          have hclosed := Scanner.nextMessages_of_ne (s := (expression.run s.next.2).scanner)
            (by simp [hclose])
          rw [hgroup] at he ⊢
          obtain rfl := Except.ok.inj he
          refine ⟨_, (hread.append hps).append hlast, ?_⟩
          rw [List.map_append]
          exact htells.group hopen hclosed _
        · simp [hgroup] at he
  · simp [hrun] at he

theorem factorWithin_tells (groups : Nat) : (factorWithin groups).Tells .factor := by
  induction groups with
  | zero => exact factorOver_tells (by simp)
  | succ groups ih =>
      apply factorOver_tells
      intro expression hexpression
      obtain rfl := Option.some.inj hexpression
      exact chain_tells .sum (chain_tells .product ih)

theorem expression_tells (depth : Nat) : (expression depth).Tells .expression :=
  chain_tells .sum (chain_tells .product (factorWithin_tells _))

/-! ## Accepted sources -/

variable {source : String} {groups : Nat}

theorem nextEvents_of_lexemes_eq_nil (h : s.cursor.lexemes = []) : s.nextEvents = #[] := by
  cases hr : s.cursor.read? with
  | none => simp [Scanner.nextEvents, hr]
  | some found => simp [Cursor.lexemes_of_read?_eq_some hr] at h

/-- The trace of an accepted source is that of its expression and two more events. -/
theorem evaluationEvents_of_parse {e : Expr} (he : parse source = .ok e) :
    ((expression 0).run (Scanner.ofSource source)).result = .ok e ∧
      ((expression 0).run (Scanner.ofSource source)).scanner.cursor.lexemes = [] ∧
      (evaluationEvents source).toList =
        ((expression 0).run (Scanner.ofSource source)).events.toList ++
          [.parsed e, .evaluated source e.evaluate] := by
  have hnil := lexemes_eq_nil_of_input he
  have hevents : evaluationEvents source =
      (input (Scanner.ofSource source)).events.push (.evaluated source e.evaluate) := by
    have hresult : (input (Scanner.ofSource source)).result = .ok e := he
    simp only [evaluationEvents, hresult]
  rw [parse] at he
  rcases input_cases (Scanner.ofSource source) with
    ⟨cause, hc, hrun⟩ | ⟨e', he', -, hrun⟩ | ⟨e', -, -, hrun⟩
  · simp [hrun, hc] at he
  · rw [hrun] at he hnil hevents
    obtain rfl := Except.ok.inj he
    refine ⟨he', hnil, ?_⟩
    rw [hevents, Array.toList_push, Array.toList_push, List.append_assoc]
    rfl
  · simp [hrun] at he

/-- The lexemes of an accepted source have their shares, one after the other. -/
theorem map_message_evaluationEvents {e : Expr} (he : parse source = .ok e) :
    (evaluationEvents source).toList.map Event.message =
        ((lexemes source).map Placed.lexeme).flatMap Lexeme.share ++ lastShare ∧
      (evaluationEvents source).toList.filterMap Event.number? = e.literals := by
  obtain ⟨hresult, hnil, hevents⟩ := evaluationEvents_of_parse he
  obtain ⟨ps, hps, htells⟩ := expression_tells 0 (Scanner.ofSource source) e hresult
  have hlexemes : lexemes source = ps := by
    have hall := hps.lexemes_eq
    rw [hnil, List.append_nil] at hall
    exact hall
  have hnext := congrArg (fun events => events.toList.map Event.message)
    (nextEvents_of_lexemes_eq_nil hnil)
  constructor
  · rw [hevents, List.map_append, htells.messages_eq, hlexemes, Scanner.nextMessages, hnext,
      List.append_assoc]
    rfl
  · rw [hevents, List.filterMap_append, htells.numbers_eq]
    exact List.append_nil _

/-! ## Counts -/

/-- Every lexeme of a kind has the same share of each message. -/
theorem count_flatMap_share (message : String) (ls : List Lexeme) :
    (ls.flatMap Lexeme.share).count message =
      (Tally.ofLexemes ls).numerals * (Lexeme.numeral ⟨[], none⟩).share.count message +
      (Tally.ofLexemes ls).sums * (Lexeme.symbol (.operator .add)).share.count message +
      (Tally.ofLexemes ls).products * (Lexeme.symbol (.operator .mul)).share.count message +
      (Tally.ofLexemes ls).groups * (Lexeme.symbol .leftParen).share.count message +
      ls.count (.symbol .rightParen) * (Lexeme.symbol .rightParen).share.count message := by
  induction ls with
  | nil => simp [Tally.ofLexemes]
  | cons l ls ih =>
      rw [List.flatMap_cons, List.count_append, ih]
      simp only [Tally.ofLexemes, List.countP_cons, List.count_cons]
      rcases l with n | ((_ | _ | _ | _) | _ | _) | c <;>
        simp [Lexeme.isNumeral, Lexeme.isSum, Lexeme.isProduct, Lexeme.share] <;>
        ring

/-- Derived lexemes close as many groups as they open. -/
theorem Derives.count_rightParen {category : Category} {ls : List Lexeme} {e : Expr}
    (h : Derives groups category ls e) :
    ls.count (.symbol .rightParen) = (Tally.ofLexemes ls).groups := by
  change _ = ls.count (.symbol .leftParen)
  induction h with
  | number n => simp
  | group _ ih => simp [ih]
  | factor _ ih => exact ih
  | product _ _ _ ihl ihr => simp [ihl, ihr]
  | term _ ih => exact ih
  | sum _ _ _ ihl ihr => simp [ihl, ihr]

theorem messageCount_evaluationEvents {e : Expr} (he : parse source = .ok e) (message : String) :
    messageCount message (evaluationEvents source).toList =
      let tally := Tally.ofLexemes ((lexemes source).map Placed.lexeme)
      tally.numerals * (Lexeme.numeral ⟨[], none⟩).share.count message +
      tally.sums * (Lexeme.symbol (.operator .add)).share.count message +
      tally.products * (Lexeme.symbol (.operator .mul)).share.count message +
      tally.groups * (Lexeme.symbol .leftParen).share.count message +
      tally.groups * (Lexeme.symbol .rightParen).share.count message +
      lastShare.count message := by
  rw [messageCount, (map_message_evaluationEvents he).1, List.count_append, count_flatMap_share,
    (derives_of_parse he).count_rightParen]

end Grammar

end FourFunction
