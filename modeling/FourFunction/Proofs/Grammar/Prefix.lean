import FourFunction.Proofs.Grammar.Exactness

/-! The place of an error. The text in front of it can be finished to a source that parses, and from
its first character on nothing can mend the source. -/

namespace FourFunction

open Text

/-! ## Kinds of errors -/

namespace SyntaxError

/-- What is wrong, without the place and the text. -/
inductive Kind where
  | missingClosingParen
  | expectedNumberOrParen
  | nestingTooDeep
  | unexpectedTrailingInput
deriving DecidableEq

def kind : SyntaxError → Kind
  | missingClosingParen _ => .missingClosingParen
  | expectedNumberOrParen _ _ => .expectedNumberOrParen
  | nestingTooDeep _ _ => .nestingTooDeep
  | unexpectedTrailingInput _ _ => .unexpectedTrailingInput

end SyntaxError

namespace Grammar

open Cursor (Reads)

/-! ## The error at which the pass stops -/

namespace Stage

/-- The four ways in which the pass can stop with an error. -/
theorem stop_cases {source : List Char} {stage : Stage} {token : Token} {start : Nat}
    {cause : SyntaxError} (h : stage.stop source token start = .error cause) :
    (stage.mode = .operand ∧ token = .symbol .leftParen ∧
      cause = .nestingTooDeep maxNesting start) ∨
    (stage.mode = .operand ∧ token ≠ .symbol .leftParen ∧
      cause = .expectedNumberOrParen token.describe start) ∨
    (stage = ⟨.operator, 0⟩ ∧
      cause = .unexpectedTrailingInput (String.ofList (dropBytes start source)) start) ∨
    (∃ opened, stage = ⟨.operator, opened + 1⟩ ∧ cause = .missingClosingParen start) := by
  unfold stop at h
  split at h
  next opened _ => exact .inl ⟨rfl, rfl, (Except.error.inj h).symm⟩
  next hparen => exact .inr (.inl ⟨rfl, hparen, (Except.error.inj h).symm⟩)
  next =>
    split at h
    · simp at h
    · exact .inr (.inr (.inl ⟨rfl, (Except.error.inj h).symm⟩))
  next opened => exact .inr (.inr (.inr ⟨opened, rfl, (Except.error.inj h).symm⟩))

theorem stop_offset {source : List Char} {stage : Stage} {token : Token} {start : Nat}
    {cause : SyntaxError} (h : stage.stop source token start = .error cause) :
    cause.offset = start := by
  rcases stop_cases h with ⟨-, -, rfl⟩ | ⟨-, -, rfl⟩ | ⟨-, rfl⟩ | ⟨opened, -, rfl⟩ <;> rfl

/-- The kind of the error depends on the stage, and on whether a parenthesis is opened. -/
theorem stop_congr {source source' : List Char} {stage : Stage} {token token' : Token}
    {start : Nat} {cause : SyntaxError} (h : stage.stop source token start = .error cause)
    (hparen : token' = .symbol .leftParen ↔ token = .symbol .leftParen)
    (hstart : start ≠ byteLength source') :
    ∃ cause', stage.stop source' token' start = .error cause' ∧ cause'.kind = cause.kind := by
  obtain ⟨mode, opened⟩ := stage
  rcases stop_cases h with
    ⟨rfl, htoken, rfl⟩ | ⟨rfl, htoken, rfl⟩ | ⟨hstage, rfl⟩ | ⟨n, hstage, rfl⟩
  · rw [hparen.mpr htoken]
    exact ⟨_, rfl, rfl⟩
  · exact ⟨_, stop_operand (mt hparen.mp htoken) source' opened start, rfl⟩
  · rw [hstage]
    exact ⟨_, if_neg hstart, rfl⟩
  · rw [hstage]
    exact ⟨_, rfl, rfl⟩

/-- After an expression that may end, nothing is missing. -/
theorem eq_of_stop_eq_trailing {source : List Char} {stage : Stage} {token : Token} {start : Nat}
    {cause : SyntaxError} (h : stage.stop source token start = .error cause)
    (hkind : cause.kind = .unexpectedTrailingInput) : stage = ⟨.operator, 0⟩ := by
  rcases stop_cases h with ⟨-, -, rfl⟩ | ⟨-, -, rfl⟩ | ⟨hstage, -⟩ | ⟨opened, -, rfl⟩
  · simp [SyntaxError.kind] at hkind
  · simp [SyntaxError.kind] at hkind
  · exact hstage
  · simp [SyntaxError.kind] at hkind

theorem kind_eq_expectedNumberOrParen_iff {source : List Char} {stage : Stage} {token : Token}
    {start : Nat} {cause : SyntaxError} (h : stage.stop source token start = .error cause) :
    cause.kind = .expectedNumberOrParen ↔
      stage.mode = .operand ∧ token ≠ .symbol .leftParen := by
  rcases stop_cases h with ⟨-, ht, rfl⟩ | ⟨hm, ht, rfl⟩ | ⟨rfl, rfl⟩ | ⟨opened, rfl, rfl⟩
  · simp [SyntaxError.kind, ht]
  · simp [SyntaxError.kind, hm, ht]
  · simp [SyntaxError.kind]
  · simp [SyntaxError.kind]

theorem ne_endOfInput_of_advance {stage next : Stage} {token : Token}
    (h : stage.advance token = some next) : token ≠ .endOfInput := by
  rintro rfl
  simp at h

/-- A number is the only token that brings the pass on from an operand, a parenthesis apart. -/
theorem advance_congr {stage : Stage} {token token' : Token} (h : stage.advance token = none)
    (hsymbol : ∀ s, token' = .symbol s → token = .symbol s) :
    stage.advance token' = none ↔ ¬ (stage.mode = .operand ∧ ∃ value, token' = .number value) := by
  cases token' with
  | number value =>
      obtain ⟨mode, opened⟩ := stage
      cases mode <;> cases opened <;> simp [advance]
  | symbol s =>
      rw [hsymbol s rfl] at h
      simp [h]
  | endOfInput => simp

/-- A numeral is an operand, so an operator comes next. -/
theorem mode_of_through {stage stage' : Stage} {ls : List Lexeme} {n : Numeral}
    (h : stage.through ls = some stage') (hn : .numeral n ∈ ls.getLast?) :
    stage'.mode = .operator := by
  obtain ⟨before, rfl⟩ := List.getLast?_eq_some_iff.mp hn
  rw [through_append] at h
  obtain ⟨mid, -, hlast⟩ := Option.bind_eq_some_iff.mp h
  change (mid.advance (.number n.value)).bind _ = _ at hlast
  obtain ⟨mode, opened⟩ := mid
  cases mode with
  | operand =>
      obtain rfl := Option.some.inj hlast
      rfl
  | operator => cases opened <;> simp [advance] at hlast

/-! ## What is missing -/

/-- An operand, if one has to come next, and the closing parentheses of the open groups. -/
def missing : Stage → List Lexeme
  | ⟨.operand, opened⟩ =>
    .numeral ⟨['1'], none⟩ :: List.replicate opened (.symbol .rightParen)
  | ⟨.operator, opened⟩ => List.replicate opened (.symbol .rightParen)

theorem through_replicate_rightParen (opened : Nat) :
    through ⟨.operator, opened⟩ (List.replicate opened (.symbol .rightParen)) =
      some ⟨.operator, 0⟩ := by
  induction opened with
  | zero => rfl
  | succ opened ih =>
      rw [List.replicate_succ, through_cons]
      exact ih

theorem through_missing (stage : Stage) : stage.through stage.missing = some ⟨.operator, 0⟩ := by
  obtain ⟨mode, opened⟩ := stage
  cases mode with
  | operand =>
      rw [missing, through_cons]
      exact through_replicate_rightParen opened
  | operator => exact through_replicate_rightParen opened

theorem missing_proper (stage : Stage) : ∀ l ∈ stage.missing, l.Proper := by
  have hone : Numeral.Proper ⟨['1'], none⟩ :=
    ⟨List.forall_mem_singleton.mpr rfl, List.forall_mem_nil _, .inl (List.cons_ne_nil _ _)⟩
  obtain ⟨mode, opened⟩ := stage
  cases mode <;> simp [missing, Lexeme.Proper, hone]

theorem missing_head?_ne_numeral {stage : Stage} (h : stage.mode = .operator) :
    ∀ l ∈ stage.missing.head?, ∀ n, l ≠ .numeral n := by
  obtain ⟨mode, opened⟩ := stage
  obtain rfl : mode = .operator := h
  intro l hl n
  obtain rfl := List.eq_of_mem_replicate (List.mem_of_mem_head? hl)
  simp

theorem missing_isChain_apart (stage : Stage) : stage.missing.IsChain Lexeme.Apart := by
  obtain ⟨mode, opened⟩ := stage
  have hclosing : (List.replicate opened (.symbol .rightParen)).IsChain Lexeme.Apart :=
    List.isChain_replicate_of_rel _ (by simp)
  cases mode with
  | operand =>
      refine List.isChain_cons.mpr ⟨?_, hclosing⟩
      intro l hl
      obtain rfl := List.eq_of_mem_replicate (List.mem_of_mem_head? hl)
      simp
  | operator => exact hclosing

end Stage

/-! ## Where the pass stops -/

/-- The pass over a source goes over these lexemes and then stops at the stage, because of the token
that the scanner reads next. -/
structure Halts (source : List Char) (ps : List Placed) (stage : Stage) (s : Scanner) : Prop where
  reads : Reads (Cursor.first source) ps s.cursor
  through : Stage.initial.through (ps.map Placed.lexeme) = some stage
  advance : stage.advance s.next.1 = none

theorem exists_reads_of_advance {source : List Char} {ps : List Placed} {stage next : Stage}
    {s : Scanner} (hreads : Reads (Cursor.first source) ps s.cursor)
    (hthrough : Stage.initial.through (ps.map Placed.lexeme) = some stage)
    (ha : stage.advance s.next.1 = some next) :
    ∃ ps', Reads (Cursor.first source) ps' s.next.2.cursor ∧
      Stage.initial.through (ps'.map Placed.lexeme) = some next := by
  obtain ⟨p, hp, htoken⟩ := Scanner.reads_next (Stage.ne_endOfInput_of_advance ha)
  refine ⟨ps ++ [p], hreads.append hp, ?_⟩
  rw [List.map_append, Stage.through_append, hthrough]
  change (stage.advance p.lexeme.token).bind _ = _
  rw [htoken, ha]
  rfl

/-- From wherever the pass has come to it goes on to a place where it stops. -/
theorem exists_halts {source : List Char} {ps : List Placed} {stage : Stage} {s : Scanner}
    (hreads : Reads (Cursor.first source) ps s.cursor)
    (hthrough : Stage.initial.through (ps.map Placed.lexeme) = some stage) :
    ∃ ps' stage' t, Halts source ps' stage' t ∧ s.cursor.offset ≤ t.cursor.offset := by
  induction hn : s.unread using Nat.strong_induction_on generalizing ps stage s with
  | h n ih =>
      cases ha : stage.advance s.next.1 with
      | none => exact ⟨ps, stage, s, ⟨hreads, hthrough, ha⟩, le_rfl⟩
      | some next =>
          obtain ⟨ps', hps', hstep⟩ := exists_reads_of_advance hreads hthrough ha
          have hlt := Scanner.unread_next_lt (Stage.ne_endOfInput_of_advance ha)
          obtain ⟨qs, stage', t, ht, hle⟩ := ih _ (hn ▸ hlt) hps' hstep rfl
          exact ⟨qs, stage', t, ht, s.offset_le_next.trans hle⟩

theorem Halts.verdictOf_eq {source : String} {ps : List Placed} {stage : Stage} {s : Scanner}
    (h : Halts source.toList ps stage s) :
    verdictOf source = stage.stop source.toList s.next.1 s.cursor.skipBlanks.offset := by
  have hs := h.reads.liesIn (Cursor.liesIn_first _)
  rw [verdictOf, lexemes, h.reads.lexemes_eq, Stage.judge_append _ h.through,
    Stage.judge_lexemes hs, h.advance]

/-! ## Texts that go on differently -/

open Cursor (Fronts)

/-- After the lexemes so far, what is missing completes the source. -/
theorem exists_parse_missing {front gap : List Char} {ps : List Placed} {last : Nat} {stage : Stage}
    (hf : Fronts front gap ps last)
    (hthrough : Stage.initial.through (ps.map Placed.lexeme) = some stage) :
    ∃ e, parse (String.ofList (front ++ stage.missing.flatMap Lexeme.text)) = .ok e := by
  have hsplits : Splits stage.missing (gap ++ stage.missing.flatMap Lexeme.text) :=
    (splits_flatMap_text stage.missing_proper).append_blanks hf.blank
  have hend : ∀ p ∈ ps.getLast?,
      p.lexeme.StopsBefore (gap ++ stage.missing.flatMap Lexeme.text) := by
    intro p hp
    cases hl : p.lexeme with
    | numeral n =>
        refine (hsplits.endsBefore ?_).stopsBefore n
        have hmode : stage.mode = .operator := by
          refine Stage.mode_of_through (n := n) hthrough ?_
          rw [List.getLast?_map, Option.mem_def.mp hp, ← hl]
          rfl
        exact Stage.missing_head?_ne_numeral hmode
    | symbol s => trivial
    | unmatched c => trivial
  have hreads := hf.reads _ hend
  obtain ⟨qs, stop, hqs, hmap, hstop⟩ :=
    Cursor.exists_reads_of_splits (c := ⟨last, gap ++ stage.missing.flatMap Lexeme.text⟩) hsplits
      stage.missing_isChain_apart
  refine exists_parse_of_verdictOf (verdictOf_of_through ?_)
  rw [lexemes, String.toList_ofList, (hreads.append hqs).lexemes_eq, hstop, List.append_nil,
    List.map_append, hmap, Stage.through_append, hthrough]
  exact stage.through_missing

/-- The same first character after the blanks may bring the pass on only if it is a point and digits
follow it. -/
theorem advance_next_eq_none_iff {stage : Stage} {s t : Scanner} {c : Char} {cs ds : List Char}
    (hs : s.cursor.skipBlanks.rest = c :: cs) (ht : t.cursor.skipBlanks.rest = c :: ds)
    (h : stage.advance s.next.1 = none) :
    stage.advance t.next.1 = none ↔
      ¬ (stage.mode = .operand ∧ c = '.' ∧ ∃ d ∈ ds.head?, d.isDigit) := by
  have hsymbol : ∀ symbol, t.next.1 = .symbol symbol → s.next.1 = .symbol symbol := by
    intro symbol hnext
    exact (Scanner.next_eq_symbol_iff hs symbol).mpr
      ((Scanner.next_eq_symbol_iff ht symbol).mp hnext)
  rw [Stage.advance_congr h hsymbol, not_iff_not]
  refine and_congr_right ?_
  intro hmode
  -- Before an operand the first token cannot have been a number, so `c` is not a digit.
  have hnumber : ¬ ∃ value, s.next.1 = .number value := by
    rintro ⟨value, hv⟩
    obtain ⟨mode, opened⟩ := stage
    obtain rfl : mode = .operand := hmode
    simp [hv, Stage.advance] at h
  rw [Scanner.next_eq_number_iff hs, Numeral.read?_isSome_iff] at hnumber
  rw [Scanner.next_eq_number_iff ht, Numeral.read?_isSome_iff]
  constructor
  · rintro ⟨hnone, hdigit | hpoint⟩
    · exact absurd ⟨hnone, .inl hdigit⟩ hnumber
    · exact hpoint
  · intro hpoint
    exact ⟨Symbol.ofChar?_of_isDigit_or_point (.inr hpoint.1), .inr hpoint⟩

theorem Halts.stop_eq {source : String} {ps : List Placed} {stage : Stage} {s : Scanner}
    {cause : SyntaxError} (h : Halts source.toList ps stage s)
    (hverdict : verdictOf source = .error cause) :
    stage.stop source.toList s.next.1 s.cursor.skipBlanks.offset = .error cause :=
  h.verdictOf_eq.symm.trans hverdict

/-- A pass that has gone on from a token reports no error at that token any more. -/
theorem offset_lt_of_advance {source : String} {ps : List Placed} {stage next : Stage} {s : Scanner}
    {cause : SyntaxError} (hreads : Reads (Cursor.first source.toList) ps s.cursor)
    (hthrough : Stage.initial.through (ps.map Placed.lexeme) = some stage)
    (ha : stage.advance s.next.1 = some next) (hverdict : verdictOf source = .error cause) :
    s.cursor.skipBlanks.offset < cause.offset := by
  have hne := Stage.ne_endOfInput_of_advance ha
  obtain ⟨ps', hps', hstep⟩ := exists_reads_of_advance hreads hthrough ha
  obtain ⟨qs, stage', t, ht, hle⟩ := exists_halts hps' hstep
  calc
    s.cursor.skipBlanks.offset < s.next.2.cursor.offset := Scanner.skipBlanks_offset_lt_next hne
    _ ≤ t.cursor.offset := hle
    _ ≤ t.cursor.skipBlanks.offset := t.cursor.offset_le_skipBlanks
    _ = cause.offset := (Stage.stop_offset (ht.stop_eq hverdict)).symm

/-- At a stop before a character, another text after that character leaves the error as it is,
unless the character is a point and becomes a number. -/
theorem Halts.verdictOf_eq_error_iff {source : String} {ps : List Placed} {stage : Stage}
    {s t : Scanner} {cause : SyntaxError} {c : Char} {cs ds : List Char}
    (h : Halts source.toList ps stage s) (hverdict : verdictOf source = .error cause)
    (hs : s.cursor.skipBlanks.rest = c :: cs) {source' : String}
    (hreads : Reads (Cursor.first source'.toList) ps t.cursor)
    (ht : t.cursor.skipBlanks = ⟨s.cursor.skipBlanks.offset, c :: ds⟩) :
    (∃ cause', verdictOf source' = .error cause' ∧ cause'.kind = cause.kind ∧
      cause'.offset = cause.offset) ↔
      ¬ (stage.mode = .operand ∧ c = '.' ∧ ∃ d ∈ ds.head?, d.isDigit) := by
  have htrest : t.cursor.skipBlanks.rest = c :: ds := congrArg Cursor.rest ht
  have htoffset : t.cursor.skipBlanks.offset = s.cursor.skipBlanks.offset := by
    rw [ht]
  have hstop := h.stop_eq hverdict
  rw [← advance_next_eq_none_iff hs htrest h.advance]
  cases ha : stage.advance t.next.1 with
  | some next =>
      simp only [reduceCtorEq, iff_false]
      rintro ⟨cause', hverdict', -, hoffset⟩
      have hlt := offset_lt_of_advance hreads h.through ha hverdict'
      rw [hoffset, Stage.stop_offset hstop, htoffset] at hlt
      exact lt_irrefl _ hlt
  | none =>
      simp only [iff_true]
      have hhalts : Halts source'.toList ps stage t := ⟨hreads, h.through, ha⟩
      have hend : s.cursor.skipBlanks.offset ≠ byteLength source'.toList := by
        have hlies := (hreads.liesIn (Cursor.liesIn_first _)).skipBlanks
        rw [← htoffset, Ne, hlies.offset_eq_byteLength_iff, htrest]
        simp
      have hparen : t.next.1 = .symbol .leftParen ↔ s.next.1 = .symbol .leftParen :=
        (Scanner.next_eq_symbol_iff htrest _).trans (Scanner.next_eq_symbol_iff hs _).symm
      obtain ⟨cause', hstop', hkind⟩ := Stage.stop_congr hstop hparen hend
      refine ⟨cause', ?_, hkind, ?_⟩
      · rw [hhalts.verdictOf_eq, htoffset]
        exact hstop'
      · rw [Stage.stop_offset hstop', Stage.stop_offset hstop]

/-! ## The first problem is reported -/

/-- The source is `front` and `rest`, with the error where `rest` starts. The text `front` can be
finished, and needs nothing more if the error is about what trails. The first character of `rest` is
wrong whatever comes after it, except that a point may still become a number. -/
structure FirstProblem (source : String) (cause : SyntaxError) (front rest : List Char) : Prop where
  divides : front ++ rest = source.toList
  offset_eq : byteLength front = cause.offset
  not_blank : ∀ c ∈ rest.head?, c ∉ blanks
  viable : ∃ more, (∃ e, parse (String.ofList (front ++ more)) = .ok e) ∧
    (cause.kind = .unexpectedTrailingInput → more = [])
  settled : ∀ c cs, rest = c :: cs → ∀ more,
    (∃ cause', parse (String.ofList (front ++ c :: more)) = .error (.grammar cause') ∧
      cause'.kind = cause.kind ∧ cause'.offset = cause.offset) ↔
      ¬ (cause.kind = .expectedNumberOrParen ∧ c = '.' ∧ ∃ d ∈ more.head?, d.isDigit)

/-- The error reported is the first problem of a source: its offset is where the longest text ends
that can be finished to a source that parses. -/
theorem exists_firstProblem {source : String} {error : ParseError}
    (h : parse source = .error error) :
    ∃ cause front rest, error = .grammar cause ∧ FirstProblem source cause front rest := by
  obtain ⟨cause, rfl, hverdict⟩ := verdictOf_of_parse_eq_error h
  obtain ⟨ps, stage, s, hhalts, -⟩ := exists_halts (s := Scanner.ofSource source) (.done _) rfl
  obtain ⟨front, gap, hf, hgap, hdivides, hlength⟩ := hhalts.reads.exists_fronts
  have hstop := hhalts.stop_eq hverdict
  refine ⟨cause, front, s.cursor.skipBlanks.rest, rfl, hdivides, ?_, ?_, ?_, ?_⟩
  · rw [hlength, Stage.stop_offset hstop]
  · intro c hc
    exact isBlank_eq_false_iff.mp (Cursor.isBlank_eq_false_of_mem_head?_skipBlanks hc)
  · refine ⟨_, exists_parse_missing hf hhalts.through, ?_⟩
    intro hkind
    rw [Stage.eq_of_stop_eq_trailing hstop hkind]
    rfl
  · intro c cs hc more
    obtain ⟨other, hreads, hother⟩ := hf.exists_reads hhalts.reads hgap hc more
    rw [← String.toList_ofList (l := front ++ c :: more)] at hreads
    have hiff := hhalts.verdictOf_eq_error_iff (t := ⟨other, .untouched⟩) hverdict hc hreads hother
    simp only [parse_eq_error_iff, hiff, Stage.kind_eq_expectedNumberOrParen_iff hstop,
      Scanner.next_eq_symbol_iff hc, Ne]
    refine not_congr (and_congr_left ?_)
    rintro ⟨rfl, -⟩
    simp [Symbol.ofChar?]

/-- The point after the operator may still become a number. -/
theorem exists_firstProblem_at_point :
    parse "1+. 2" = .error (.grammar (.expectedNumberOrParen "end of input" 2)) ∧
      ∃ cause front rest,
        ParseError.grammar (.expectedNumberOrParen "end of input" 2) = .grammar cause ∧
          FirstProblem "1+. 2" cause front rest :=
  ⟨parse_eq_error_iff.mpr (by decide +kernel),
    exists_firstProblem (parse_eq_error_iff.mpr (by decide +kernel))⟩

end Grammar

end FourFunction
