import FourFunction.Proofs.Scanner.Next
import FourFunction.Scanner.Bookmark
import Mathlib.Data.List.Induction
import Mathlib.Data.List.TakeWhile

/-! A scanner is a bookmark in the lexemes of one pass over its source. Whatever calls are made on
it, it answers as the bookmark does and is where the bookmark says. -/

namespace FourFunction

/-! ## Calls -/

namespace Call

variable {σ : Type} (perform : σ → Call → Answer × σ)

theorem after_concat (s : σ) (calls : List Call) (call : Call) :
    after perform s (calls ++ [call]) = (perform (after perform s calls) call).2 := by
  simp [after]

theorem log_concat (s : σ) (calls : List Call) (call : Call) :
    log perform s (calls ++ [call]) =
      log perform s calls ++
        [⟨after perform s calls, call, (perform (after perform s calls) call).1⟩] := by
  induction calls generalizing s with
  | nil => rfl
  | cons first calls ih => simp only [List.cons_append, log, ih, after, List.foldl_cons]

theorem lastSuccess?_concat_of_succeeded {entry : Entry σ} (h : entry.answer.succeeded = true)
    (entries : List (Entry σ)) : lastSuccess? (entries ++ [entry]) = some entry := by
  simp [lastSuccess?, h]

theorem lastSuccess?_concat_of_refused {entry : Entry σ} (h : entry.answer.succeeded = false)
    (entries : List (Entry σ)) : lastSuccess? (entries ++ [entry]) = lastSuccess? entries := by
  simp [lastSuccess?, h]

/-- If every call is answered alike and leads from states in step to states in step, then so are
all calls. -/
theorem answers_eq_and_after_eq {τ : Type} {perform' : τ → Call → Answer × τ} {toState : τ → σ}
    (good : τ → Prop)
    (hgood : ∀ t call, good t → good (perform' t call).2)
    (hstep : ∀ t call, good t →
      perform (toState t) call = ((perform' t call).1, toState (perform' t call).2))
    {t : τ} (ht : good t) (calls : List Call) :
    answers perform (toState t) calls = answers perform' t calls ∧
      after perform (toState t) calls = toState (after perform' t calls) := by
  induction calls generalizing t with
  | nil => exact ⟨rfl, rfl⟩
  | cons call calls ih =>
      obtain ⟨hanswers, hafter⟩ := ih (hgood t call ht)
      have h := hstep t call ht
      simp only [answers, log, after, List.map_cons, List.foldl_cons, h] at *
      exact ⟨by rw [hanswers], hafter⟩

end Call

/-! ## Places of the lexemes -/

namespace Bookmark

open Cursor (Reads)

theorem isMatched_of_mem {source : String} {p : Placed} (h : p ∈ matchedLexemes source) :
    p.lexeme.isMatched := by
  simpa using List.mem_takeWhile_imp (p := fun p : Placed => p.lexeme.isMatched) h

theorem take_matchedLexemes {source : String} {i : Nat} (hi : i ≤ (matchedLexemes source).length) :
    (matchedLexemes source).take i = (lexemes source).take i := by
  have hprefix : matchedLexemes source <+: lexemes source := List.takeWhile_prefix _
  rw [List.prefix_iff_eq_take.mp hprefix, List.take_take, Nat.min_eq_left hi]

/-- Reading lexemes from the start of a source leads to their place. -/
theorem eq_place {source : String} {i : Nat} {c : Cursor}
    (h : Reads (Cursor.first source.toList) ((matchedLexemes source).take i) c) :
    c = place source i := by
  have hoffset : c.offset = offset (matchedLexemes source) i := h.offset_eq
  have hrest := (h.liesIn (Cursor.liesIn_first source.toList)).dropBytes_eq
  rw [hoffset] at hrest
  obtain ⟨start, rest⟩ := c
  simp only at hoffset hrest
  rw [place, hoffset, hrest]

/-- After the first lexemes of a source come the others. -/
theorem reads_place (source : String) {i : Nat} (hi : i ≤ (matchedLexemes source).length) :
    Reads (Cursor.first source.toList) ((matchedLexemes source).take i) (place source i) ∧
      (place source i).lexemes = (lexemes source).drop i := by
  have hsplit : (Cursor.first source.toList).lexemes =
      (matchedLexemes source).take i ++ (lexemes source).drop i := by
    rw [take_matchedLexemes hi]
    exact (List.take_append_drop i (lexemes source)).symm
  have hmatched : ∀ p ∈ (matchedLexemes source).take i, p.lexeme.isMatched := by
    intro p hp
    exact isMatched_of_mem (List.mem_of_mem_take hp)
  obtain ⟨c, hc, hlex⟩ := Cursor.exists_reads hsplit hmatched
  rw [← eq_place hc]
  exact ⟨hc, hlex⟩

@[simp] theorem place_zero (source : String) : place source 0 = Cursor.first source.toList := by
  simp [place, offset, Cursor.first]

@[simp] theorem scanner_initial (source : String) :
    initial.scanner source = Scanner.ofSource source := by
  simp [scanner, initial, Scanner.ofSource]

/-! ## One call -/

/-- The lexemes counted by a bookmark are there. -/
def Within (ls : List Placed) (b : Bookmark) : Prop :=
  b.index ≤ ls.length ∧ ∀ i, b.slot = .returnable i → i ≤ ls.length

theorem within_initial (ls : List Placed) : initial.Within ls :=
  ⟨Nat.zero_le _, by simp [initial]⟩

theorem Within.perform {ls : List Placed} {b : Bookmark} (h : b.Within ls) (call : Call) :
    (b.perform ls call).2.Within ls := by
  obtain ⟨hindex, hslot⟩ := h
  cases call with
  | next =>
      simp only [Bookmark.perform, next]
      split
      next placed hp =>
        obtain ⟨hlt, -⟩ := List.getElem?_eq_some_iff.mp hp
        refine ⟨hlt, ?_⟩
        intro i hi
        obtain rfl := Slot.returnable.inj hi
        exact hindex
      next =>
        refine ⟨hindex, ?_⟩
        intro i hi
        obtain rfl := Slot.returnable.inj hi
        exact hindex
  | pushBack =>
      simp only [Bookmark.perform, pushBack]
      cases hs : b.slot with
      | untouched => exact ⟨hindex, by simp [hs]⟩
      | returnable i => exact ⟨hslot i hs, by simp⟩
      | spent => exact ⟨hindex, by simp [hs]⟩

/-- Before the last lexeme the next one is read, which leads to the next place. -/
theorem next_place {source : String} {i : Nat} {placed : Placed}
    (hp : (matchedLexemes source)[i]? = some placed) (history : History) :
    Scanner.next ⟨place source i, history⟩ =
      (placed.lexeme.token, ⟨place source (i + 1), .returnable (place source i)⟩) := by
  obtain ⟨hi, hget⟩ := List.getElem?_eq_some_iff.mp hp
  have hreads := (reads_place source (Nat.succ_le_of_lt hi)).1
  rw [← List.take_append_getElem hi, hget] at hreads
  obtain ⟨mid, hmid, hlast⟩ := hreads.exists_of_append
  rw [eq_place hmid] at hlast
  exact Scanner.next_of_reads hlast

/-- After the last lexeme there is the end of the input, and reading it leads nowhere. -/
theorem next_place_length (source : String) (history : History) :
    Scanner.next ⟨place source (matchedLexemes source).length, history⟩ =
      (.endOfInput, ⟨place source (matchedLexemes source).length,
        .returnable (place source (matchedLexemes source).length)⟩) := by
  refine Scanner.next_of_unmatched ?_
  intro p mid hr
  have hlex := (reads_place source (le_refl (matchedLexemes source).length)).2
  rw [Cursor.lexemes_of_read?_eq_some hr] at hlex
  have hdrop : (lexemes source).drop (matchedLexemes source).length =
      (lexemes source).dropWhile fun placed => placed.lexeme.isMatched := by
    conv_lhs =>
      rw [← List.takeWhile_append_dropWhile (l := lexemes source)
        (p := fun placed => placed.lexeme.isMatched)]
    exact List.drop_left
  have hhead := List.head?_dropWhile_not (fun placed => placed.lexeme.isMatched)
    (lexemes source)
  rw [← hdrop, ← hlex, List.head?_cons] at hhead
  simpa using hhead

/-- The scanner of a bookmark answers a call as the bookmark does. -/
theorem perform_scanner {source : String} {b : Bookmark} (h : b.Within (matchedLexemes source))
    (call : Call) :
    (b.scanner source).perform call =
      ((b.perform (matchedLexemes source) call).1,
        (b.perform (matchedLexemes source) call).2.scanner source) := by
  obtain ⟨index, slot⟩ := b
  cases call with
  | next =>
      cases hp : (matchedLexemes source)[index]? with
      | some placed =>
          have hnext : (Bookmark.scanner source ⟨index, slot⟩).next = _ := next_place hp _
          simp only [Scanner.perform, Bookmark.perform, next, hp, hnext]
          rfl
      | none =>
          obtain rfl : index = (matchedLexemes source).length :=
            le_antisymm h.1 (List.getElem?_eq_none_iff.mp hp)
          have hnext : (Bookmark.scanner source ⟨_, slot⟩).next = _ := next_place_length source _
          simp only [Scanner.perform, Bookmark.perform, next, hp, hnext]
          rfl
  | pushBack => cases slot <;> rfl

theorem within_after (source : String) (calls : List Call) :
    (Call.after (perform (matchedLexemes source)) initial calls).Within
      (matchedLexemes source) := by
  induction calls using List.reverseRecOn with
  | nil => exact within_initial _
  | append_singleton calls call ih =>
      rw [Call.after_concat]
      exact ih.perform call

/-- All calls on a fresh scanner are answered as the bookmark at the start answers them. -/
theorem answers_eq_and_scanner_eq (source : String) (calls : List Call) :
    Call.answers Scanner.perform (Scanner.ofSource source) calls =
        Call.answers (perform (matchedLexemes source)) initial calls ∧
      Call.after Scanner.perform (Scanner.ofSource source) calls =
        (Call.after (perform (matchedLexemes source)) initial calls).scanner source := by
  rw [← scanner_initial]
  exact Call.answers_eq_and_after_eq Scanner.perform (Within (matchedLexemes source))
    (fun _ call h => h.perform call) (fun _ call h => perform_scanner h call)
    (within_initial _) calls

end Bookmark

namespace Scanner

/-! ## What is remembered of calls -/

/-- What a scanner remembers is the call that has succeeded last: the place before it if a token
was read, and no more than that it was spent if one was given back. -/
def Remembers (calls : List Call) (entries : List (Call.Entry Scanner)) (s : Scanner) : Prop :=
  match s.history with
  | .untouched => .next ∉ calls ∧ Call.lastSuccess? entries = none
  | .returnable before =>
    .next ∈ calls ∧ ∃ entry, Call.lastSuccess? entries = some entry ∧ entry.call = .next ∧
      entry.answer = .token entry.before.next.1 ∧ before = entry.before.cursor ∧
      s = entry.before.next.2
  | .spent =>
    .next ∈ calls ∧ ∃ entry, Call.lastSuccess? entries = some entry ∧ entry.call = .pushBack

theorem Remembers.cases {calls : List Call} {entries : List (Call.Entry Scanner)} {s : Scanner}
    (h : s.Remembers calls entries) :
    (s.history = .untouched ∧ .next ∉ calls ∧ Call.lastSuccess? entries = none) ∨
    (∃ entry, s.history = .returnable entry.before.cursor ∧ .next ∈ calls ∧
      Call.lastSuccess? entries = some entry ∧ entry.call = .next ∧
      entry.answer = .token entry.before.next.1 ∧ s = entry.before.next.2) ∨
    (∃ entry, s.history = .spent ∧ .next ∈ calls ∧ Call.lastSuccess? entries = some entry ∧
      entry.call = .pushBack) := by
  rw [Remembers] at h
  cases hh : s.history with
  | untouched =>
      rw [hh] at h
      exact .inl ⟨rfl, h⟩
  | returnable before =>
      rw [hh] at h
      obtain ⟨hnext, entry, hlast, hcall, hanswer, rfl, hs⟩ := h
      exact .inr (.inl ⟨entry, rfl, hnext, hlast, hcall, hanswer, hs⟩)
  | spent =>
      rw [hh] at h
      obtain ⟨hnext, entry, hlast, hcall⟩ := h
      exact .inr (.inr ⟨entry, rfl, hnext, hlast, hcall⟩)

theorem Remembers.perform {calls : List Call} {entries : List (Call.Entry Scanner)} {s : Scanner}
    (h : s.Remembers calls entries) (call : Call) :
    (s.perform call).2.Remembers (calls ++ [call])
      (entries ++ [⟨s, call, (s.perform call).1⟩]) := by
  cases call with
  | next =>
      simp only [Scanner.perform, Remembers, history_next]
      exact ⟨by simp, _, Call.lastSuccess?_concat_of_succeeded rfl _, rfl, rfl, rfl, rfl⟩
  | pushBack =>
      rcases h.cases with ⟨hh, hnext, hlast⟩ | ⟨entry, hh, hnext, -⟩ |
        ⟨entry, hh, hnext, hlast, hcall⟩
      · simp only [Scanner.perform, pushBack, hh, Remembers]
        exact ⟨by simp [hnext], (Call.lastSuccess?_concat_of_refused rfl _).trans hlast⟩
      · simp only [Scanner.perform, pushBack, hh, Remembers]
        exact ⟨by simp [hnext], _, Call.lastSuccess?_concat_of_succeeded rfl _, rfl⟩
      · simp only [Scanner.perform, pushBack, hh, Remembers]
        exact ⟨by simp [hnext], entry, (Call.lastSuccess?_concat_of_refused rfl _).trans hlast,
          hcall⟩

theorem remembers_after (source : String) (calls : List Call) :
    (Call.after Scanner.perform (ofSource source) calls).Remembers calls
      (Call.log Scanner.perform (ofSource source) calls) := by
  induction calls using List.reverseRecOn with
  | nil => exact ⟨by simp, rfl⟩
  | append_singleton calls call ih =>
      rw [Call.after_concat, Call.log_concat]
      exact ih.perform call

/-- A token is given back if the call that has succeeded last was one for it, and the scanner is
then where it was before that call. -/
theorem Remembers.pushBack_eq_ok_iff {calls : List Call} {entries : List (Call.Entry Scanner)}
    {s : Scanner} (h : s.Remembers calls entries) (back : Scanner) :
    s.pushBack = .ok back ↔ ∃ entry, Call.lastSuccess? entries = some entry ∧
      entry.call = .next ∧ back = ⟨entry.before.cursor, .spent⟩ := by
  rcases h.cases with ⟨hh, -, hlast⟩ | ⟨entry, hh, -, hlast, hcall, -, -⟩ |
    ⟨entry, hh, -, hlast, hcall⟩
  · simp [pushBack, hh, hlast]
  · simp [pushBack, hh, hlast, hcall, eq_comm]
  · simp [pushBack, hh, hlast, hcall]

/-- A token given back is read again, which leads to the scanner before it was given back. -/
theorem Remembers.next_of_pushBack {calls : List Call} {entries : List (Call.Entry Scanner)}
    {s back : Scanner} (h : s.Remembers calls entries) (hb : s.pushBack = .ok back) :
    ∃ entry, Call.lastSuccess? entries = some entry ∧ entry.answer = .token back.next.1 ∧
      back.next.2 = s := by
  rcases h.cases with ⟨hh, -⟩ | ⟨entry, hh, -, hlast, -, hanswer, hs⟩ | ⟨entry, hh, -⟩
  · simp [pushBack, hh] at hb
  · simp only [pushBack, hh, Except.ok.injEq] at hb
    subst hb
    exact ⟨entry, hlast, hanswer, hs.symm⟩
  · simp [pushBack, hh] at hb

theorem Remembers.pushBack_eq_error {calls : List Call} {entries : List (Call.Entry Scanner)}
    {s : Scanner} (h : s.Remembers calls entries) :
    (s.pushBack = .error .nothingToPushBack ↔ .next ∉ calls) ∧
      ∀ cause, s.pushBack = .error cause → .next ∈ calls →
        cause = .doublePushBack s.cursor.offset := by
  rcases h.cases with ⟨hh, hnext, -⟩ | ⟨entry, hh, hnext, -⟩ | ⟨entry, hh, hnext, -⟩
  · simp [pushBack, hh, hnext]
  · simp [pushBack, hh, hnext]
  · simp [pushBack, hh, hnext, eq_comm]

/-! ## The end of the input -/

/-- No further token can be read, and none that was read can be given back. -/
def AtEnd (s : Scanner) : Prop :=
  s.next.1 = .endOfInput ∧ ∀ before, s.history = .returnable before → before = s.cursor

theorem atEnd_next {s : Scanner} (h : s.next.1 = .endOfInput) : s.next.2.AtEnd := by
  rw [next_eq_of_endOfInput h]
  refine ⟨(congrArg Prod.fst (next_congr rfl)).trans h, ?_⟩
  intro before hb
  exact (History.returnable.inj hb).symm

/-- Nothing that is called for at the end leads anywhere. -/
theorem AtEnd.perform {s : Scanner} (h : s.AtEnd) (call : Call) :
    (s.perform call).2.AtEnd ∧ (s.perform call).2.cursor = s.cursor ∧
      ∀ token, (s.perform call).1 = .token token → token = .endOfInput := by
  cases call with
  | next =>
      refine ⟨atEnd_next h.1, ?_, ?_⟩
      · rw [Scanner.perform, next_eq_of_endOfInput h.1]
      · intro token ht
        rw [← Answer.token.inj ht, h.1]
  | pushBack =>
      cases hh : s.history with
      | untouched => simpa [Scanner.perform, pushBack, hh] using h
      | spent => simpa [Scanner.perform, pushBack, hh] using h
      | returnable before =>
          obtain rfl := h.2 before hh
          simp only [Scanner.perform, pushBack, hh]
          exact ⟨⟨(congrArg Prod.fst (next_congr rfl)).trans h.1, by simp⟩, trivial, by simp⟩

theorem AtEnd.after {s : Scanner} (h : s.AtEnd) (calls : List Call) :
    (Call.after Scanner.perform s calls).cursor = s.cursor ∧
      ∀ entry ∈ Call.log Scanner.perform s calls, ∀ token,
        entry.answer = .token token → token = .endOfInput := by
  induction calls generalizing s with
  | nil => simp [Call.after, Call.log]
  | cons call calls ih =>
      obtain ⟨hend, hcursor, hanswer⟩ := h.perform call
      obtain ⟨hafter, hlog⟩ := ih hend
      refine ⟨hafter.trans hcursor, ?_⟩
      intro entry he
      rcases List.mem_cons.mp he with rfl | he
      · exact hanswer
      · exact hlog entry he

/-! ## Runs of calls -/

/-- What calls on a fresh scanner come to, beside the bookmark after the same calls. The bookmark
accounts for all answers and for the whole scanner. The last three fields say when a token is given
back, where that leads, and why it is refused. -/
structure FollowsBookmark (source : String) (calls : List Call)
    (entries : List (Call.Entry Scanner)) (s : Scanner) (b : Bookmark) : Prop where
  answers_eq : entries.map Call.Entry.answer =
    Call.answers (Bookmark.perform (matchedLexemes source)) .initial calls
  scanner_eq : s = b.scanner source
  index_le : b.index ≤ (matchedLexemes source).length
  offset_eq : s.cursor.offset = Bookmark.offset (matchedLexemes source) b.index
  endOfInput_iff : s.next.1 = .endOfInput ↔ b.index = (matchedLexemes source).length
  after_endOfInput : s.next.1 = .endOfInput → ∀ more,
    (Call.after Scanner.perform s.next.2 more).cursor = s.cursor ∧
      ∀ entry ∈ Call.log Scanner.perform s.next.2 more, ∀ token,
        entry.answer = .token token → token = .endOfInput
  pushBack_eq_ok_iff : ∀ back, s.pushBack = .ok back ↔
    ∃ entry, Call.lastSuccess? entries = some entry ∧ entry.call = .next ∧
      back = ⟨entry.before.cursor, .spent⟩
  next_of_pushBack : ∀ back, s.pushBack = .ok back →
    ∃ entry, Call.lastSuccess? entries = some entry ∧ entry.answer = .token back.next.1 ∧
      back.next.2 = s
  pushBack_eq_error : (s.pushBack = .error .nothingToPushBack ↔ .next ∉ calls) ∧
    ∀ cause, s.pushBack = .error cause →
      (.next ∈ calls → cause = .doublePushBack s.cursor.offset) ∧
        s.perform .pushBack = (.refused cause, s)

theorem perform_of_pushBack_eq_error {s : Scanner} {cause : ScanError}
    (h : s.pushBack = .error cause) : s.perform .pushBack = (.refused cause, s) := by
  simp only [Scanner.perform, h]

theorem next_scanner_eq_endOfInput_iff {source : String} {b : Bookmark}
    (h : b.Within (matchedLexemes source)) :
    (b.scanner source).next.1 = .endOfInput ↔ b.index = (matchedLexemes source).length := by
  have hnext := congrArg Prod.fst (Bookmark.perform_scanner h .next)
  simp only [Scanner.perform, Bookmark.perform, Answer.token.injEq] at hnext
  rw [hnext, Bookmark.next]
  cases hp : (matchedLexemes source)[b.index]? with
  | none => simpa using le_antisymm h.1 (List.getElem?_eq_none_iff.mp hp)
  | some placed =>
      obtain ⟨hlt, hget⟩ := List.getElem?_eq_some_iff.mp hp
      have hmatched := Bookmark.isMatched_of_mem (List.mem_of_getElem? hp)
      constructor
      · intro he
        exact absurd he (Lexeme.token_ne_endOfInput hmatched)
      · omega

/-- All calls on a fresh scanner are answered as by an index into the lexemes of one pass over the
source with one place to go back to, and lead to where that index says. -/
theorem followsBookmark (source : String) (calls : List Call) :
    FollowsBookmark source calls (Call.log Scanner.perform (ofSource source) calls)
      (Call.after Scanner.perform (ofSource source) calls)
      (Call.after (Bookmark.perform (matchedLexemes source)) .initial calls) := by
  have hwithin : (Call.after (Bookmark.perform (matchedLexemes source)) .initial calls).Within
      (matchedLexemes source) := Bookmark.within_after source calls
  obtain ⟨hanswers, hafter⟩ := Bookmark.answers_eq_and_scanner_eq source calls
  have hremembers := remembers_after source calls
  refine ⟨hanswers, hafter, hwithin.1, ?_, ?_, ?_, hremembers.pushBack_eq_ok_iff, ?_,
    hremembers.pushBack_eq_error.1, ?_⟩
  · rw [hafter]
    rfl
  · rw [hafter]
    exact next_scanner_eq_endOfInput_iff hwithin
  · intro hend more
    obtain ⟨hcursor, hlog⟩ := (atEnd_next hend).after more
    refine ⟨?_, hlog⟩
    rw [hcursor, next_eq_of_endOfInput hend]
  · intro back hback
    exact hremembers.next_of_pushBack hback
  · intro cause hcause
    exact ⟨hremembers.pushBack_eq_error.2 cause hcause, perform_of_pushBack_eq_error hcause⟩

end Scanner

end FourFunction
