import FourFunction.Numeral
import FourFunction.Symbol

/-! Lexemes: the pieces into which a source splits between its blanks. A character that starts
neither a numeral nor a symbol is a piece of its own. -/

namespace FourFunction

inductive Lexeme where
  | numeral (n : Numeral)
  | symbol (s : Symbol)
  | unmatched (c : Char)
deriving DecidableEq

namespace Lexeme

def text : Lexeme → List Char
  | numeral n => n.text
  | symbol s => [s.toChar]
  | unmatched c => [c]

/-- The lexeme at the start of a text that does not start with a blank, and the text after it. -/
def read? : List Char → Option (Lexeme × List Char)
  | [] => none
  | c :: cs =>
    match Symbol.ofChar? c with
    | some s => some (symbol s, cs)
    | none =>
      match Numeral.read? (c :: cs) with
      | some (n, rest) => some (numeral n, rest)
      | none => some (unmatched c, cs)

@[simp] theorem read?_nil : read? [] = none := rfl

theorem read?_eq_some {cs rest : List Char} {l : Lexeme} (h : read? cs = some (l, rest)) :
    (∃ c s, cs = c :: rest ∧ Symbol.ofChar? c = some s ∧ l = symbol s) ∨
    (∃ n, Numeral.read? cs = some (n, rest) ∧ l = numeral n) ∨
    (∃ c, cs = c :: rest ∧ Symbol.ofChar? c = none ∧ Numeral.read? cs = none ∧
      l = unmatched c) := by
  cases cs with
  | nil => simp at h
  | cons c cs =>
      simp only [read?] at h
      cases hs : Symbol.ofChar? c with
      | some s =>
          simp only [hs, Option.some.injEq, Prod.mk.injEq] at h
          exact .inl ⟨c, s, by rw [h.2], hs, h.1.symm⟩
      | none =>
          cases hn : Numeral.read? (c :: cs) with
          | some found =>
              simp only [hs, hn, Option.some.injEq, Prod.mk.injEq] at h
              exact .inr (.inl ⟨found.1, by rw [← h.2], h.1.symm⟩)
          | none =>
              simp only [hs, hn, Option.some.injEq, Prod.mk.injEq] at h
              exact .inr (.inr ⟨c, by rw [h.2], hs, rfl, h.1.symm⟩)

/-- Nothing is lost: a lexeme is the text in front of what is left. -/
theorem read?_append {cs rest : List Char} {l : Lexeme} (h : read? cs = some (l, rest)) :
    l.text ++ rest = cs := by
  rcases read?_eq_some h with ⟨c, s, rfl, hs, rfl⟩ | ⟨n, hn, rfl⟩ | ⟨c, rfl, -, -, rfl⟩
  · simp [text, Symbol.toChar_of_ofChar? hs]
  · exact Numeral.read?_append hn
  · rfl

theorem read?_text_ne_nil {cs rest : List Char} {l : Lexeme} (h : read? cs = some (l, rest)) :
    l.text ≠ [] := by
  rcases read?_eq_some h with ⟨c, s, rfl, hs, rfl⟩ | ⟨n, hn, rfl⟩ | ⟨c, rfl, -, -, rfl⟩
  · simp [text]
  · exact Numeral.read?_text_ne_nil hn
  · simp [text]

theorem read?_length {cs rest : List Char} {l : Lexeme} (h : read? cs = some (l, rest)) :
    rest.length < cs.length := by
  have hl := List.length_pos_iff.2 (read?_text_ne_nil h)
  have := congrArg List.length (read?_append h)
  simp only [List.length_append] at this
  omega

end Lexeme

end FourFunction
