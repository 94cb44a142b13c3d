import FourFunction.Text.Blank
import FourFunction.Token
import Mathlib.Data.List.TakeWhile

/-! The texts of lexemes. A lexeme is proper if it has a text of its kind, and a proper lexeme is
read back from its text wherever that text does not go on. -/

namespace FourFunction

open Text

/-! ## Runs of characters -/

namespace Text

variable {p : Char → Bool} {cs : List Char}

theorem eq_false_of_mem_head?_dropWhile {c : Char} (h : c ∈ (cs.dropWhile p).head?) :
    p c = false := by
  have hhead := List.head?_dropWhile_not p cs
  rw [Option.mem_def.mp h] at hhead
  exact hhead

theorem takeWhile_eq_nil_of_head? (h : ∀ c ∈ cs.head?, p c = false) : cs.takeWhile p = [] := by
  cases cs with
  | nil => rfl
  | cons c cs => simp [h c rfl]

theorem dropWhile_eq_self_of_head? (h : ∀ c ∈ cs.head?, p c = false) : cs.dropWhile p = cs := by
  cases cs with
  | nil => rfl
  | cons c cs => simp [h c rfl]

/-- A run of characters ends before the first that does not belong to it. -/
theorem takeWhile_append_cons {gap : List Char} {c : Char} (hgap : ∀ b ∈ gap, p b)
    (hc : p c = false) : (gap ++ c :: cs).takeWhile p = gap := by
  rw [List.takeWhile_append_of_pos hgap, List.takeWhile_cons_of_neg (by simp [hc]), List.append_nil]

theorem dropWhile_append_cons {gap : List Char} {c : Char} (hgap : ∀ b ∈ gap, p b)
    (hc : p c = false) : (gap ++ c :: cs).dropWhile p = c :: cs := by
  rw [List.dropWhile_append_of_pos hgap, List.dropWhile_cons_of_neg (by simp [hc])]

/-- An element of two lists one after the other is in the first or in the second. -/
theorem append_eq_append_cons {α : Type} {xs ys before after : List α} {x : α}
    (h : xs ++ ys = before ++ x :: after) :
    (∃ rest, xs = before ++ x :: rest ∧ after = rest ++ ys) ∨
      ∃ rest, before = xs ++ rest ∧ ys = rest ++ x :: after := by
  rcases List.append_eq_append_iff.mp h with ⟨rest, hbefore, hys⟩ | ⟨rest, hxs, hafter⟩
  · exact .inr ⟨rest, hbefore, hys⟩
  · cases rest with
    | nil => exact .inr ⟨[], by simpa using hxs.symm, hafter.symm⟩
    | cons y rest =>
        rw [List.cons_append, List.cons.injEq] at hafter
        obtain ⟨rfl, rfl⟩ := hafter
        exact .inl ⟨rest, hxs, rfl⟩

/-- An element of two lists around another one is in one of them, or it is the one between. -/
theorem append_cons_eq_append_cons {α : Type} {xs ys before after : List α} {x y : α}
    (h : xs ++ y :: ys = before ++ x :: after) :
    (∃ rest, xs = before ++ x :: rest ∧ after = rest ++ y :: ys) ∨
      (before = xs ∧ x = y ∧ after = ys) ∨
      ∃ rest, before = xs ++ y :: rest ∧ ys = rest ++ x :: after := by
  rcases append_eq_append_cons h with hfirst | ⟨rest, rfl, hrest⟩
  · exact .inl hfirst
  · cases rest with
    | nil =>
        obtain ⟨rfl, rfl⟩ := List.cons.inj hrest
        exact .inr (.inl ⟨List.append_nil _, rfl, rfl⟩)
    | cons z rest =>
        obtain ⟨rfl, rfl⟩ := List.cons.inj hrest
        exact .inr (.inr ⟨rest, rfl, rfl⟩)

end Text

/-! ## Numerals -/

namespace Numeral

/-- Digits with at most one point among them or at an end, and at least one digit. -/
def Proper (n : Numeral) : Prop :=
  (∀ c ∈ n.whole, c.isDigit) ∧ (∀ c ∈ n.fractionDigits, c.isDigit) ∧
    (n.whole ≠ [] ∨ n.fractionDigits ≠ [])

/-- A text that goes on neither with a digit nor with a point, so that no numeral in front of it
can be longer. -/
def EndsBefore (rest : List Char) : Prop :=
  ∀ c ∈ rest.head?, c.isDigit = false ∧ c ≠ '.'

/-- A text that does not go on with what would make this numeral longer. After a point there is no
other one in a numeral. -/
def StopsBefore (n : Numeral) (rest : List Char) : Prop :=
  ∀ c ∈ rest.head?, c.isDigit = false ∧ (n.fraction = none → c ≠ '.')

theorem EndsBefore.stopsBefore {rest : List Char} (h : EndsBefore rest) (n : Numeral) :
    n.StopsBefore rest := by
  intro c hc
  exact ⟨(h c hc).1, fun _ => (h c hc).2⟩

theorem StopsBefore.takeWhile_isDigit {n : Numeral} {rest : List Char} (h : n.StopsBefore rest) :
    rest.takeWhile Char.isDigit = [] :=
  takeWhile_eq_nil_of_head? fun c hc => (h c hc).1

theorem StopsBefore.dropWhile_isDigit {n : Numeral} {rest : List Char} (h : n.StopsBefore rest) :
    rest.dropWhile Char.isDigit = rest :=
  dropWhile_eq_self_of_head? fun c hc => (h c hc).1

theorem readFraction?_of_stopsBefore {whole rest : List Char}
    (h : StopsBefore ⟨whole, none⟩ rest) (hw : whole ≠ []) :
    readFraction? whole rest = some (⟨whole, none⟩, rest) := by
  cases rest with
  | nil => simp [readFraction?, hw]
  | cons c cs =>
      have hc : c ≠ '.' := (h c rfl).2 rfl
      simp [readFraction?, hw, hc]

/-- A proper numeral is read back from its text. -/
theorem read?_text_append {n : Numeral} (hn : n.Proper) {rest : List Char}
    (hr : n.StopsBefore rest) : read? (n.text ++ rest) = some (n, rest) := by
  obtain ⟨whole, fraction⟩ := n
  obtain ⟨hwhole, hfraction, hsome⟩ := hn
  cases fraction with
  | none =>
      have hne : whole ≠ [] := by simpa [fractionDigits] using hsome
      simp only [read?, text]
      rw [List.takeWhile_append_of_pos hwhole, List.dropWhile_append_of_pos hwhole,
        hr.takeWhile_isDigit, hr.dropWhile_isDigit, List.append_nil,
        readFraction?_of_stopsBefore hr hne]
  | some digits =>
      have hdigits : ∀ c ∈ digits, c.isDigit := hfraction
      simp only [read?, text, List.append_assoc, List.cons_append]
      rw [List.takeWhile_append_of_pos hwhole, List.dropWhile_append_of_pos hwhole,
        List.takeWhile_cons_of_neg (by decide), List.dropWhile_cons_of_neg (by decide),
        List.append_nil, readFraction?, List.takeWhile_append_of_pos hdigits,
        List.dropWhile_append_of_pos hdigits, hr.takeWhile_isDigit, hr.dropWhile_isDigit,
        List.append_nil, if_neg]
      intro hnil
      rcases hsome with hs | hs
      · exact hs hnil.1
      · exact hs hnil.2

/-- A numeral is determined by its text. -/
theorem Proper.eq_of_text_eq {n m : Numeral} (hn : n.Proper) (hm : m.Proper)
    (h : n.text = m.text) : n = m := by
  have hnread : read? (n.text ++ []) = some (n, []) :=
    read?_text_append hn (by simp [StopsBefore])
  have hmread : read? (m.text ++ []) = some (m, []) :=
    read?_text_append hm (by simp [StopsBefore])
  rw [h, hmread] at hnread
  exact (Prod.mk.inj (Option.some.inj hnread)).1.symm

/-- The longest numeral is read, so what is left does not make it longer. -/
theorem read?_stopsBefore {cs rest : List Char} {n : Numeral} (h : read? cs = some (n, rest)) :
    n.StopsBefore rest := by
  intro c hc
  rcases readFraction?_eq_some h with ⟨after, hafter, -, rfl, rfl⟩ | ⟨hpoint, -, rfl, rfl⟩
  · exact ⟨eq_false_of_mem_head?_dropWhile hc, by simp⟩
  · refine ⟨eq_false_of_mem_head?_dropWhile hc, ?_⟩
    rintro - rfl
    obtain ⟨after, hafter⟩ := List.head?_eq_some_iff.mp hc
    exact hpoint after hafter

theorem readFraction?_proper {whole cs rest : List Char} {n : Numeral}
    (hw : ∀ c ∈ whole, c.isDigit) (h : readFraction? whole cs = some (n, rest)) : n.Proper := by
  rcases readFraction?_eq_some h with ⟨after, rfl, hd, rfl, rfl⟩ | ⟨-, hne, rfl, rfl⟩
  · exact ⟨hw, fun c hc => List.mem_takeWhile_imp hc, not_and_or.mp hd⟩
  · exact ⟨hw, by simp [fractionDigits], .inl hne⟩

theorem read?_proper {cs rest : List Char} {n : Numeral} (h : read? cs = some (n, rest)) :
    n.Proper :=
  readFraction?_proper (fun _ hc => List.mem_takeWhile_imp hc) h

/-- A numeral starts with a digit, or with a point that a digit follows. -/
theorem read?_isSome_iff (c : Char) (cs : List Char) :
    (read? (c :: cs)).isSome ↔ c.isDigit ∨ c = '.' ∧ ∃ d ∈ cs.head?, d.isDigit := by
  by_cases hc : c.isDigit
  · have hne : (c :: cs).takeWhile Char.isDigit ≠ [] := by simp [hc]
    simp only [hc, true_or, iff_true, read?, readFraction?, if_neg hne]
    split
    · simp [hne]
    · simp
  · by_cases hpoint : c = '.'
    · subst hpoint
      cases cs with
      | nil => simp [read?, readFraction?, hc]
      | cons d ds =>
          by_cases hd : d.isDigit <;> simp [read?, readFraction?, hc, hd]
    · simp [read?, readFraction?, hc, hpoint]

/-- The text of a proper numeral starts with a digit or a point. -/
theorem Proper.exists_text_eq_cons {n : Numeral} (hn : n.Proper) :
    ∃ c cs, n.text = c :: cs ∧ (c.isDigit ∨ c = '.') := by
  obtain ⟨whole, fraction⟩ := n
  obtain ⟨hwhole, -, hsome⟩ := hn
  cases whole with
  | cons c cs =>
      have hc : c.isDigit := hwhole c (by simp)
      cases fraction with
      | none => exact ⟨c, cs, rfl, .inl hc⟩
      | some digits => exact ⟨c, cs ++ '.' :: digits, rfl, .inl hc⟩
  | nil =>
      cases fraction with
      | none => simp [fractionDigits] at hsome
      | some digits => exact ⟨'.', digits, rfl, .inr rfl⟩

theorem Proper.isDigit_or_point {n : Numeral} (hn : n.Proper) :
    ∀ c ∈ n.text, c.isDigit ∨ c = '.' := by
  obtain ⟨whole, fraction⟩ := n
  obtain ⟨hwhole, hfraction, -⟩ := hn
  intro c hc
  cases fraction with
  | none => exact .inl (hwhole c hc)
  | some digits =>
      rcases List.mem_append.mp hc with hc | hc
      · exact .inl (hwhole c hc)
      · rcases List.mem_cons.mp hc with rfl | hc
        · exact .inr rfl
        · exact .inl (hfraction c hc)

end Numeral

/-! ## Characters -/

theorem Symbol.toChar_injective : Function.Injective Symbol.toChar := by
  intro s t h
  have hsymbol := congrArg ofChar? h
  rw [ofChar?_toChar, ofChar?_toChar] at hsymbol
  exact Option.some.inj hsymbol

theorem Symbol.ofChar?_of_isDigit_or_point {c : Char} (h : c.isDigit ∨ c = '.') :
    Symbol.ofChar? c = none := by
  unfold Symbol.ofChar?
  split <;> simp_all

theorem Symbol.toChar_isDigit_or_point (s : Symbol) :
    s.toChar.isDigit = false ∧ s.toChar ≠ '.' := by
  rcases s with (_ | _ | _ | _) | _ | _ <;> decide

theorem Symbol.isBlank_toChar (s : Symbol) : isBlank s.toChar = false := by
  rcases s with (_ | _ | _ | _) | _ | _ <;> decide

theorem Symbol.toChar_not_mem_blanks (s : Symbol) : s.toChar ∉ blanks :=
  isBlank_eq_false_iff.mp s.isBlank_toChar

theorem Text.takeWhile_isBlank_subset (cs : List Char) : cs.takeWhile isBlank ⊆ blanks :=
  subset_blanks_iff.mpr fun _ hc => List.mem_takeWhile_imp hc

theorem Text.isDigit_or_point_of_mem_blanks {c : Char} (h : c ∈ blanks) :
    c.isDigit = false ∧ c ≠ '.' := by
  simp only [blanks, List.mem_cons, List.not_mem_nil, or_false] at h
  rcases h with rfl | rfl | rfl | rfl | rfl <;> decide

theorem Text.isBlank_of_isDigit_or_point {c : Char} (h : c.isDigit ∨ c = '.') :
    isBlank c = false := by
  rw [isBlank_eq_false_iff]
  intro hb
  have hno := isDigit_or_point_of_mem_blanks hb
  rcases h with hc | hc
  · simp [hno.1] at hc
  · exact hno.2 hc

/-! ## Lexemes -/

namespace Lexeme

/-- Proper numerals and all symbols. -/
def Proper : Lexeme → Prop
  | numeral n => n.Proper
  | symbol _ => True
  | unmatched _ => False

/-- Not two numerals, which would have to be kept apart by a blank. -/
def Apart : Lexeme → Lexeme → Prop
  | numeral _, numeral _ => False
  | _, _ => True

@[simp] theorem apart_symbol_left (s : Symbol) (l : Lexeme) : Apart (symbol s) l := by
  simp [Apart]

@[simp] theorem apart_symbol_right (l : Lexeme) (s : Symbol) : Apart l (symbol s) := by
  cases l <;> simp [Apart]

theorem Proper.isMatched {l : Lexeme} (h : l.Proper) : l.isMatched := by
  cases l with
  | numeral n => rfl
  | symbol s => rfl
  | unmatched c => exact h.elim

/-- The text of a proper lexeme does not start with a blank. -/
theorem Proper.exists_text_eq_cons {l : Lexeme} (h : l.Proper) :
    ∃ c cs, l.text = c :: cs ∧ isBlank c = false := by
  cases l with
  | numeral n =>
      obtain ⟨c, cs, htext, hc⟩ := Numeral.Proper.exists_text_eq_cons h
      exact ⟨c, cs, htext, isBlank_of_isDigit_or_point hc⟩
  | symbol s => exact ⟨s.toChar, [], rfl, s.isBlank_toChar⟩
  | unmatched c => exact h.elim

/-- The character of a symbol is the whole text of a lexeme in which it stands. -/
theorem Proper.eq_symbol {l : Lexeme} (h : l.Proper) {before after : List Char} {s : Symbol}
    (htext : l.text = before ++ s.toChar :: after) : l = symbol s ∧ before = [] ∧ after = [] := by
  cases l with
  | numeral n =>
      have hc := Numeral.Proper.isDigit_or_point h s.toChar (by simp [show n.text = _ from htext])
      simp [s.toChar_isDigit_or_point] at hc
  | symbol s' =>
      cases before with
      | nil =>
          obtain ⟨hchar, hafter⟩ := List.cons.inj htext
          exact ⟨congrArg symbol (Symbol.toChar_injective hchar), rfl, hafter.symm⟩
      | cons b before => simp [text] at htext
  | unmatched c => exact h.elim

/-- Only numerals can be made longer by what follows. -/
def StopsBefore : Lexeme → List Char → Prop
  | numeral n, rest => n.StopsBefore rest
  | _, _ => True

/-- A proper lexeme is read back from its text. -/
theorem read?_text_append {l : Lexeme} (h : l.Proper) {rest : List Char}
    (hr : l.StopsBefore rest) : read? (l.text ++ rest) = some (l, rest) := by
  cases l with
  | numeral n =>
      obtain ⟨c, cs, htext, hc⟩ := Numeral.Proper.exists_text_eq_cons h
      have hread := Numeral.read?_text_append h hr
      rw [text, htext, List.cons_append] at *
      simp only [read?, Symbol.ofChar?_of_isDigit_or_point hc, hread]
  | symbol s => simp [text, read?]
  | unmatched c => exact h.elim

/-- What is read is proper, unless it is an unmatched character. -/
theorem read?_proper {cs rest : List Char} {l : Lexeme} (h : read? cs = some (l, rest))
    (hl : l.isMatched) : l.Proper := by
  rcases read?_eq_some h with ⟨c, s, rfl, -, rfl⟩ | ⟨n, hn, rfl⟩ | ⟨c, rfl, -, -, rfl⟩
  · trivial
  · exact Numeral.read?_proper hn
  · simp [Lexeme.isMatched] at hl

theorem read?_stopsBefore {cs rest : List Char} {l : Lexeme} (h : read? cs = some (l, rest)) :
    l.StopsBefore rest := by
  rcases read?_eq_some h with ⟨c, s, -, -, rfl⟩ | ⟨n, hn, rfl⟩ | ⟨c, -, -, -, rfl⟩
  · trivial
  · exact Numeral.read?_stopsBefore hn
  · trivial

/-- Whether a lexeme is made longer is seen from the first character after it. -/
theorem StopsBefore.of_head?_eq {l : Lexeme} {cs ds : List Char} (h : l.StopsBefore cs)
    (hhead : ds.head? = cs.head?) : l.StopsBefore ds := by
  cases l with
  | numeral n =>
      intro c hc
      exact h c (hhead ▸ hc)
  | symbol s => trivial
  | unmatched c => trivial

end Lexeme

end FourFunction
