import FourFunction.Proofs.Cursor.Reads
import FourFunction.Scanner

/-! What reading the next token can do to a scanner. -/

namespace FourFunction

/-! ## Lexemes behind tokens -/

namespace Lexeme

theorem token_eq_endOfInput_iff {l : Lexeme} : l.token = .endOfInput ↔ l.isMatched = false := by
  cases l <;> simp [token, isMatched]

theorem token_ne_endOfInput {l : Lexeme} (h : l.isMatched) : l.token ≠ .endOfInput := by
  simp [token_eq_endOfInput_iff, h]

theorem eq_numeral_of_token {l : Lexeme} {value : Float} (h : l.token = .number value) :
    ∃ n : Numeral, l = .numeral n ∧ n.value = value := by
  cases l with
  | numeral n => exact ⟨n, rfl, by simpa [token] using h⟩
  | symbol s => simp [token] at h
  | unmatched c => simp [token] at h

theorem eq_symbol_of_token {l : Lexeme} {s : Symbol} (h : l.token = .symbol s) :
    l = .symbol s := by
  cases l with
  | numeral n => simp [token] at h
  | symbol s' => simpa [token] using h
  | unmatched c => simp [token] at h

end Lexeme

theorem Token.operatorOf?_eq_some {level : Level} {token : Token} {op : Operator}
    (h : token.operatorOf? level = some op) :
    token = .symbol (.operator op) ∧ op ∈ level.operators := by
  rcases token with value | ⟨op' | _ | _⟩ | _
  · simp [operatorOf?] at h
  · by_cases hl : op'.level = level
    · simp only [operatorOf?, if_pos hl, Option.some.injEq] at h
      rw [← h]
      exact ⟨rfl, Operator.level_eq_iff.mp hl⟩
    · simp [operatorOf?, hl] at h
  · simp [operatorOf?] at h
  · simp [operatorOf?] at h
  · simp [operatorOf?] at h

namespace Scanner

open Cursor (Reads)

/-! ## The next token -/

/-- A token other than the end of the input is that of one lexeme, which is then read. -/
theorem reads_next {s : Scanner} (h : s.next.1 ≠ .endOfInput) :
    ∃ p, Reads s.cursor [p] s.next.2.cursor ∧ p.lexeme.token = s.next.1 := by
  rcases s.next_cases with ⟨p, mid, hr, hp, hn⟩ | ⟨-, hn⟩
  · refine ⟨p, ?_, ?_⟩
    · rw [hn]
      exact .single hr hp
    · rw [hn]
  · rw [hn] at h
    exact absurd rfl h

theorem next_of_reads {s : Scanner} {p : Placed} {mid : Cursor} (h : Reads s.cursor [p] mid) :
    s.next = (p.lexeme.token, ⟨mid, .returnable s.cursor⟩) :=
  next_of_matched h.read?_single h.isMatched_single

/-- At the end of the input the scanner stays. -/
theorem next_eq_of_endOfInput {s : Scanner} (h : s.next.1 = .endOfInput) :
    s.next = (.endOfInput, ⟨s.cursor, .returnable s.cursor⟩) := by
  rcases s.next_cases with ⟨p, mid, -, hp, hn⟩ | ⟨-, hn⟩
  · rw [hn] at h
    exact absurd h (Lexeme.token_ne_endOfInput hp)
  · exact hn

/-- The next token depends on the cursor only. -/
theorem next_congr {s t : Scanner} (h : s.cursor = t.cursor) : s.next = t.next := by
  rw [next, next, h]

/-- Reading a token passes over at most one lexeme. -/
theorem exists_reads_next (s : Scanner) : ∃ ps, Reads s.cursor ps s.next.2.cursor := by
  by_cases h : s.next.1 = .endOfInput
  · rw [next_eq_of_endOfInput h]
    exact ⟨[], .done _⟩
  · obtain ⟨p, hp, -⟩ := reads_next h
    exact ⟨[p], hp⟩

theorem liesIn_next (s : Scanner) {source : List Char} (hs : s.cursor.LiesIn source) :
    s.next.2.cursor.LiesIn source := by
  obtain ⟨ps, hps⟩ := s.exists_reads_next
  exact hps.liesIn hs

theorem offset_le_next (s : Scanner) : s.cursor.offset ≤ s.next.2.cursor.offset := by
  obtain ⟨ps, hps⟩ := s.exists_reads_next
  exact hps.offset_le

/-- A token other than the end of the input starts before the place to which reading it leads. -/
theorem skipBlanks_offset_lt_next {s : Scanner} (h : s.next.1 ≠ .endOfInput) :
    s.cursor.skipBlanks.offset < s.next.2.cursor.offset := by
  obtain ⟨p, hp, -⟩ := reads_next h
  exact Cursor.skipBlanks_offset_lt hp.read?_single

theorem reads_next_symbol {s : Scanner} {symbol : Symbol} (h : s.next.1 = .symbol symbol) :
    ∃ start, Reads s.cursor [⟨.symbol symbol, start⟩] s.next.2.cursor := by
  obtain ⟨⟨l, start⟩, hp, ht⟩ := s.reads_next (by simp [h])
  obtain rfl := Lexeme.eq_symbol_of_token (ht.trans h)
  exact ⟨start, hp⟩

theorem reads_next_number {s : Scanner} {value : Float} (h : s.next.1 = .number value) :
    ∃ n start, Reads s.cursor [⟨.numeral n, start⟩] s.next.2.cursor ∧ n.value = value := by
  obtain ⟨⟨l, start⟩, hp, ht⟩ := s.reads_next (by simp [h])
  obtain ⟨n, rfl, hn⟩ := Lexeme.eq_numeral_of_token (ht.trans h)
  exact ⟨n, start, hp, hn⟩

/-- Whether a symbol comes next is seen from the first character after the blanks. -/
theorem next_eq_symbol_iff {s : Scanner} {c : Char} {cs : List Char}
    (h : s.cursor.skipBlanks.rest = c :: cs) (symbol : Symbol) :
    s.next.1 = .symbol symbol ↔ Symbol.ofChar? c = some symbol := by
  simp only [next, Cursor.read?, h, Lexeme.read?]
  cases Symbol.ofChar? c with
  | some found => simp [Lexeme.token?]
  | none => cases Numeral.read? (c :: cs) <;> simp [Lexeme.token?]

theorem next_eq_number_iff {s : Scanner} {c : Char} {cs : List Char}
    (h : s.cursor.skipBlanks.rest = c :: cs) :
    (∃ value, s.next.1 = .number value) ↔
      Symbol.ofChar? c = none ∧ (Numeral.read? (c :: cs)).isSome := by
  simp only [next, Cursor.read?, h, Lexeme.read?]
  cases Symbol.ofChar? c with
  | some found => simp [Lexeme.token?]
  | none => cases Numeral.read? (c :: cs) <;> simp [Lexeme.token?]

/-- The next token starts after the blanks. -/
@[simp] theorem tokenStart_next (s : Scanner) :
    s.next.2.tokenStart = s.cursor.skipBlanks.offset := by
  simp [tokenStart]

end Scanner

end FourFunction
