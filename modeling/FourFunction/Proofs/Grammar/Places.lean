import FourFunction.Proofs.Grammar.Exit
import FourFunction.Proofs.Grammar.Session
import FourFunction.Proofs.Lexeme.Proper
import FourFunction.Scanner.Bookmark
import FourFunction.Text.Slice

/-! Where a scanner stands in its source, whatever has been done to it. It stands after some lexemes
of the source, and so does the place to which it can go back, from which it has read one token. So
every offset that it works with lies between two characters of the source. -/

namespace FourFunction

open Text
open Cursor (Reads)

/-! ## Places as offsets -/

namespace Cursor

theorem LiesIn.suffix?_eq {source : List Char} {c : Cursor} (h : LiesIn source c) :
    suffix? c.offset source = some c.rest :=
  suffix?_eq_some_iff.mpr h

theorem LiesIn.isBoundary {source : String} {c : Cursor} (h : LiesIn source.toList c) :
    IsBoundary source c.offset :=
  isBoundary_iff.mpr ⟨c.rest, h.suffix?_eq⟩

theorem LiesIn.offset_add {source : String} {c : Cursor} (h : LiesIn source.toList c) :
    c.offset + byteLength c.rest = source.utf8ByteSize := by
  obtain ⟨before, hsource, hlength⟩ := h
  rw [utf8ByteSize_eq, ← hsource, byteLength_append, hlength]

end Cursor

/-- What is read from the start of a source on are the first of its matched lexemes. -/
theorem isPrefix_matchedLexemes {source : String} {ps : List Placed} {c : Cursor}
    (h : Reads (Cursor.first source.toList) ps c) : ps <+: matchedLexemes source := by
  have hlexemes : lexemes source = ps ++ c.lexemes := h.lexemes_eq
  rw [matchedLexemes, hlexemes, List.takeWhile_append_of_pos (by simpa using h.matched)]
  exact List.prefix_append _ _

namespace Scanner

/-! ## Tokens given back -/

theorem pushBack_eq_ok_iff {s back : Scanner} :
    s.pushBack = .ok back ↔ ∃ before, s.history = .returnable before ∧ back = ⟨before, .spent⟩ := by
  cases hh : s.history <;> simp [pushBack, hh, eq_comm]

/-! ## The text of a token -/

/-- A token is a lexeme after blanks, or it is the end of the input and takes up no text. -/
theorem exists_text_next (s : Scanner) :
    (s.next.1 = .endOfInput ∧ s.next.2.cursor = s.cursor) ∨
    ∃ gap l, gap ⊆ blanks ∧ l.Proper ∧ s.next.1 = l.token ∧
      s.cursor.rest = gap ++ l.text ++ s.next.2.cursor.rest ∧
      s.next.2.cursor.offset = s.cursor.offset + byteLength (gap ++ l.text) ∧
      Reads s.cursor [⟨l, s.cursor.offset + byteLength gap⟩] s.next.2.cursor := by
  by_cases hend : s.next.1 = .endOfInput
  · refine .inl ⟨hend, ?_⟩
    rw [next_eq_of_endOfInput hend]
  · obtain ⟨⟨l, start⟩, hread, htoken⟩ := reads_next hend
    obtain ⟨hstart, hstop, htext⟩ := Cursor.read?_eq_some hread.read?_single
    obtain rfl : start = s.cursor.offset + byteLength (s.cursor.rest.takeWhile isBlank) := hstart
    refine .inr ⟨s.cursor.rest.takeWhile isBlank, l, takeWhile_isBlank_subset _,
      Lexeme.read?_proper htext hread.isMatched_single, htoken.symm, ?_, ?_,
      hread⟩
    · rw [List.append_assoc, Lexeme.read?_append htext]
      exact List.takeWhile_append_dropWhile.symm
    · rw [hstop, Placed.stop, byteLength_append, Nat.add_assoc]

/-! ## What has been read -/

/-- The scanner stands after lexemes of the source, and so does the place to which it can go back.
From there it has read one token. -/
structure HasRead (source : String) (s : Scanner) : Prop where
  exists_reads : ∃ ps, Reads (Cursor.first source.toList) ps s.cursor
  returnable : ∀ before, s.history = .returnable before →
    (∃ ps, Reads (Cursor.first source.toList) ps before) ∧ s = (Scanner.mk before .spent).next.2

theorem hasRead_ofSource (source : String) : (ofSource source).HasRead source :=
  ⟨⟨[], .done _⟩, by simp [ofSource]⟩

theorem kept_hasRead (source : String) : Grammar.Kept (HasRead source) where
  next := by
    intro s hs
    obtain ⟨ps, hps⟩ := hs.exists_reads
    obtain ⟨qs, hqs⟩ := s.exists_reads_next
    refine ⟨⟨ps ++ qs, hps.append hqs⟩, ?_⟩
    intro before hb
    rw [history_next, History.returnable.injEq] at hb
    subst hb
    exact ⟨⟨ps, hps⟩, congrArg Prod.snd (next_congr rfl)⟩
  pushBack := by
    intro s back hs hb
    obtain ⟨before, hh, rfl⟩ := pushBack_eq_ok_iff.mp hb
    exact ⟨(hs.returnable before hh).1, by simp⟩

theorem hasRead_reached (source : String) (actions : List Grammar.Action) :
    (Grammar.reached source actions).HasRead source :=
  Grammar.reached_keeps (kept_hasRead source) (hasRead_ofSource source) actions

theorem HasRead.liesIn {source : String} {s : Scanner} (h : s.HasRead source) :
    s.cursor.LiesIn source.toList := by
  obtain ⟨ps, hps⟩ := h.exists_reads
  exact hps.liesIn (Cursor.liesIn_first source.toList)

theorem HasRead.liesIn_of_returnable {source : String} {s : Scanner} (h : s.HasRead source)
    {before : Cursor} (hb : s.history = .returnable before) : before.LiesIn source.toList := by
  obtain ⟨⟨ps, hps⟩, -⟩ := h.returnable before hb
  exact hps.liesIn (Cursor.liesIn_first source.toList)

/-! ## Offsets of a scanner -/

/-- The place at which the search for the last token started, or that of the next one after a token
was given back. -/
def origin (s : Scanner) : Cursor :=
  match s.history with
  | .returnable before => before
  | _ => s.cursor

theorem tokenStart_eq (s : Scanner) : s.tokenStart = s.origin.skipBlanks.offset := by
  obtain ⟨cursor, history⟩ := s
  cases history <;> rfl

theorem origin_cases (s : Scanner) : s.history = .returnable s.origin ∨ s.origin = s.cursor := by
  obtain ⟨cursor, history⟩ := s
  cases history with
  | untouched => exact .inr rfl
  | returnable before => exact .inl rfl
  | spent => exact .inr rfl

theorem HasRead.liesIn_origin {source : String} {s : Scanner} (h : s.HasRead source) :
    s.origin.LiesIn source.toList := by
  rcases s.origin_cases with hb | hcursor
  · exact h.liesIn_of_returnable hb
  · rw [hcursor]
    exact h.liesIn

theorem skipBlanks_offset_le_next (s : Scanner) :
    s.cursor.skipBlanks.offset ≤ s.next.2.cursor.skipBlanks.offset := by
  by_cases hend : s.next.1 = .endOfInput
  · rw [next_eq_of_endOfInput hend]
  · have hlt := skipBlanks_offset_lt_next hend
    have hle := s.next.2.cursor.offset_le_skipBlanks
    omega

theorem HasRead.tokenStart_le {source : String} {s : Scanner} (h : s.HasRead source) :
    s.tokenStart ≤ s.remainderOffset := by
  rw [tokenStart_eq]
  rcases s.origin_cases with hb | hcursor
  · obtain ⟨-, hnext⟩ := h.returnable s.origin hb
    have hle := skipBlanks_offset_le_next ⟨s.origin, .spent⟩
    rw [← hnext] at hle
    exact hle
  · rw [hcursor]
    exact Nat.le_refl _

/-- Reading the text `between` gave one token, with which the scanner has come to its place: the end
of the input if there is no such text, and else a lexeme after blanks. -/
structure LastToken (source : String) (before : Cursor) (between : List Char) (s : Scanner) :
    Prop where
  suffix?_eq : suffix? before.offset source.toList = some (between ++ s.cursor.rest)
  offset_eq : s.cursor.offset = before.offset + byteLength between
  exists_earlier : ∃ earlier : Scanner, earlier.cursor = before ∧ s = earlier.next.2 ∧
    (earlier.next.1 = .endOfInput ∧ between = [] ∨
      ∃ gap l, gap ⊆ blanks ∧ l.Proper ∧ between = gap ++ l.text ∧
        earlier.next.1 = l.token ∧ ⟨l, before.offset + byteLength gap⟩ ∈ matchedLexemes source)

theorem HasRead.exists_lastToken {source : String} {s : Scanner} (h : s.HasRead source)
    {before : Cursor} (hb : s.history = .returnable before) :
    ∃ between, LastToken source before between s := by
  obtain ⟨⟨ps, hps⟩, hnext⟩ := h.returnable before hb
  have hsuffix := (h.liesIn_of_returnable hb).suffix?_eq
  rcases exists_text_next ⟨before, .spent⟩ with
    ⟨hend, hcursor⟩ | ⟨gap, l, hgap, hl, htoken, hrest, hoffset, hread⟩
  · rw [← hnext] at hcursor
    refine ⟨[], ?_, ?_, ⟨before, .spent⟩, rfl, hnext, .inl ⟨hend, rfl⟩⟩
    · rw [hcursor, hsuffix, List.nil_append]
    · rw [hcursor, byteLength_nil, Nat.add_zero]
  · rw [← hnext] at hrest hoffset
    have hmem := (isPrefix_matchedLexemes (hps.append hread)).subset
    refine ⟨gap ++ l.text, ?_, hoffset, ⟨before, .spent⟩, rfl, hnext,
      .inr ⟨gap, l, hgap, hl, rfl, htoken, hmem (by simp)⟩⟩
    rw [hsuffix, hrest]

/-- What is true of the places of a scanner at all times. All texts that it takes from its source
start at the offset of the scanner or at that to which it can go back, and both are boundaries.
Between the two lies the last token. -/
structure WellPlaced (source : String) (s : Scanner) : Prop where
  cursor_isBoundary : IsBoundary source s.cursor.offset
  cursor_le : s.cursor.offset ≤ source.utf8ByteSize
  suffix?_cursor : suffix? s.cursor.offset source.toList = some s.cursor.rest
  returnable : ∀ before, s.history = .returnable before →
    IsBoundary source before.offset ∧ before.offset ≤ s.cursor.offset ∧
      ∃ between, LastToken source before between s
  suffix?_origin : suffix? s.origin.offset source.toList = some s.origin.rest
  tokenStart_add : s.tokenStart + byteLength (s.origin.rest.dropWhile (· ∈ blanks)) =
    source.utf8ByteSize
  remainder_eq : s.remainder.toList = s.cursor.rest.dropWhile (· ∈ blanks)
  remainderOffset_add : s.remainderOffset + s.remainder.utf8ByteSize = source.utf8ByteSize
  suffix?_remainderOffset : suffix? s.remainderOffset source.toList = some s.remainder.toList
  tokenStart_le : s.tokenStart ≤ s.remainderOffset
  remainderOffset_le : s.remainderOffset ≤ source.utf8ByteSize
  tokenStart_isBoundary : IsBoundary source s.tokenStart
  remainderOffset_isBoundary : IsBoundary source s.remainderOffset

theorem HasRead.wellPlaced {source : String} {s : Scanner} (h : s.HasRead source) :
    s.WellPlaced source where
  cursor_isBoundary := h.liesIn.isBoundary
  cursor_le := h.liesIn.isBoundary.le
  suffix?_cursor := h.liesIn.suffix?_eq
  returnable := by
    intro before hb
    obtain ⟨between, hbetween⟩ := h.exists_lastToken hb
    have hoffset := hbetween.offset_eq
    exact ⟨(h.liesIn_of_returnable hb).isBoundary, by omega, between, hbetween⟩
  suffix?_origin := h.liesIn_origin.suffix?_eq
  tokenStart_add := by
    rw [tokenStart_eq, ← dropWhile_isBlank]
    exact h.liesIn_origin.skipBlanks.offset_add
  remainder_eq := by
    rw [remainder, String.toList_ofList, ← dropWhile_isBlank]
    rfl
  remainderOffset_add := by
    rw [remainder, utf8ByteSize_ofList]
    exact h.liesIn.skipBlanks.offset_add
  suffix?_remainderOffset := by
    rw [remainder, String.toList_ofList]
    exact h.liesIn.skipBlanks.suffix?_eq
  tokenStart_le := h.tokenStart_le
  remainderOffset_le := h.liesIn.skipBlanks.isBoundary.le
  tokenStart_isBoundary := by
    rw [tokenStart_eq]
    exact h.liesIn_origin.skipBlanks.isBoundary
  remainderOffset_isBoundary := h.liesIn.skipBlanks.isBoundary

end Scanner

namespace Grammar

/-! ## Whether a token has been read -/

theorem kept_touched : Kept fun s => s.history ≠ .untouched where
  next := by
    intro s _
    simp
  pushBack := by
    intro s back _ hb
    obtain ⟨before, -, rfl⟩ := Scanner.pushBack_eq_ok_iff.mp hb
    simp

/-- Every rule reads a token first. -/
theorem rule_touches (depth : Nat) (category : Category) :
    ∀ s, ((rule depth category).run s).scanner.history ≠ .untouched := by
  apply rule_induction (P := fun r => ∀ s, (r.run s).scanner.history ≠ .untouched)
  · intro level operand ho s
    rcases chain_cases level operand s with ⟨left, -, hextends⟩ | ⟨cause, -, hrun⟩
    · exact hextends.keeps kept_touched (fun s _ => ho s) (ho s)
    · rw [hrun]
      exact ho s
  · intro inner hi s
    have hnext : s.next.2.history ≠ .untouched := by simp
    rcases factorOver_cases inner s with ⟨value, -, hrun⟩ | ⟨-, hrun⟩ | ⟨-, -, hrun⟩
    · rw [hrun]
      exact hnext
    · rw [hrun]
      exact group_keeps kept_touched (fun expression he s _ => hi expression he s) hnext
    · rw [hrun]
      exact hnext

theorem input_touches (s : Scanner) : (input s).scanner.history ≠ .untouched := by
  have hexpression := rule_touches 0 .expression s
  rcases input_cases s with ⟨cause, -, hrun⟩ | ⟨e, -, -, hrun⟩ | ⟨e, -, -, hrun⟩ <;> rw [hrun] <;>
    exact hexpression

theorem perform_untouched_iff (s : Scanner) (action : Action) :
    (action.perform s).history = .untouched ↔
      s.history = .untouched ∧ action = .call .pushBack := by
  cases action with
  | call c =>
      cases c with
      | next => simp [Action.perform, Scanner.perform]
      | pushBack =>
          cases hh : s.history <;>
            simp [Action.perform, Scanner.perform, Scanner.pushBack, hh]
  | rule depth category => simp [Action.perform, rule_touches depth category s]
  | input => simp [Action.perform, input_touches s]

/-- Only a scanner of which no more was wanted than to give tokens back has not read any. -/
theorem reached_untouched_iff (source : String) (actions : List Action) :
    (reached source actions).history = .untouched ↔
      ∀ action ∈ actions, action = .call .pushBack := by
  induction actions using List.reverseRecOn with
  | nil => simp [reached, Scanner.ofSource]
  | append_singleton actions action ih =>
      rw [reached, List.foldl_concat, perform_untouched_iff]
      change (reached source actions).history = .untouched ∧ _ ↔ _
      rw [ih, List.forall_mem_append]
      simp

/-! ## Errors -/

theorem reached_concat (source : String) (actions : List Action) (action : Action) :
    reached source (actions ++ [action]) = action.perform (reached source actions) := by
  rw [reached, List.foldl_concat, ← reached]

/-- An error about the last token lies where that token starts. -/
theorem AtLastToken.exists_isBoundary {source : String} {cause : ParseError} {s : Scanner}
    (h : AtLastToken cause s) (hs : s.HasRead source) :
    ∃ offset, cause.offset? = some offset ∧ IsBoundary source offset := by
  obtain ⟨e, rfl, -, hstart, -⟩ := h
  refine ⟨e.offset, rfl, ?_⟩
  rw [← hstart]
  exact hs.wellPlaced.tokenStart_isBoundary

/-- Whatever has been done to a scanner on a source, its places are in order, it knows whether a
token was read, and what a rule that fails on it reports lies between two characters. -/
theorem reached_wellPlaced (source : String) (actions : List Action) :
    (reached source actions).WellPlaced source ∧
      ((reached source actions).history = .untouched ↔
        ∀ action ∈ actions, action = .call .pushBack) ∧
      (∀ depth category cause,
        ((rule depth category).run (reached source actions)).result = .error cause →
          ∃ offset, cause.offset? = some offset ∧ IsBoundary source offset) ∧
      ∀ cause, (input (reached source actions)).result = .error cause →
        ∃ offset, cause.offset? = some offset ∧ IsBoundary source offset := by
  have hread := Scanner.hasRead_reached source
  refine ⟨(hread actions).wellPlaced, reached_untouched_iff source actions, ?_, ?_⟩
  · intro depth category cause he
    have hafter := hread (actions ++ [.rule depth category])
    rw [reached_concat] at hafter
    exact (rule_failsAtToken depth category _ cause he).exists_isBoundary hafter
  · intro cause he
    have hafter := hread (actions ++ [.input])
    rw [reached_concat] at hafter
    rcases input_result_eq_error he with hlast | ⟨rfl, -⟩
    · exact hlast.exists_isBoundary hafter
    · exact ⟨_, rfl, hafter.wellPlaced.remainderOffset_isBoundary⟩

end Grammar

end FourFunction
