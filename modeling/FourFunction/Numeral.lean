import FourFunction.Numeric.Binary64

/-! Numerals: digits with at most one point. The longest numeral at the start of a text is read,
and its value is the double nearest to what its digits denote. -/

namespace FourFunction

open Numeric

/-- A numeral as written: the digits before the point, and those after it if there is a point. -/
structure Numeral where
  whole : List Char
  fraction : Option (List Char)
deriving DecidableEq

namespace Numeral

def text : Numeral → List Char
  | ⟨whole, none⟩ => whole
  | ⟨whole, some fraction⟩ => whole ++ '.' :: fraction

/-- The rest of a numeral after the digits before its point. There has to be a digit on one side
of the point. -/
def readFraction? (whole : List Char) : List Char → Option (Numeral × List Char)
  | '.' :: after =>
    if whole = [] ∧ after.takeWhile Char.isDigit = [] then none
    else some (⟨whole, some (after.takeWhile Char.isDigit)⟩, after.dropWhile Char.isDigit)
  | rest => if whole = [] then none else some (⟨whole, none⟩, rest)

/-- The longest numeral at the start of a text, and the text after it. -/
def read? (cs : List Char) : Option (Numeral × List Char) :=
  readFraction? (cs.takeWhile Char.isDigit) (cs.dropWhile Char.isDigit)

/-- The digits after the point; a numeral without a point has none. -/
def fractionDigits (n : Numeral) : List Char :=
  n.fraction.getD []

def denotes (n : Numeral) : Rat :=
  mkRat (Nat.ofDigitChars 10 (n.whole ++ n.fractionDigits) 0)
    (Nat.pow 10 n.fractionDigits.length)

def value (n : Numeral) : Float :=
  nearestFloat n.denotes

theorem readFraction?_eq_some {whole cs rest : List Char} {n : Numeral}
    (h : readFraction? whole cs = some (n, rest)) :
    (∃ after, cs = '.' :: after ∧ ¬ (whole = [] ∧ after.takeWhile Char.isDigit = []) ∧
      n = ⟨whole, some (after.takeWhile Char.isDigit)⟩ ∧ rest = after.dropWhile Char.isDigit) ∨
    ((∀ after, cs ≠ '.' :: after) ∧ whole ≠ [] ∧ n = ⟨whole, none⟩ ∧ rest = cs) := by
  simp only [readFraction?] at h
  split at h
  next after =>
    by_cases hd : whole = [] ∧ after.takeWhile Char.isDigit = []
    · simp [hd] at h
    · simp only [if_neg hd, Option.some.injEq, Prod.mk.injEq] at h
      exact .inl ⟨after, rfl, hd, h.1.symm, h.2.symm⟩
  next hpoint =>
    by_cases hw : whole = []
    · simp [hw] at h
    · simp only [if_neg hw, Option.some.injEq, Prod.mk.injEq] at h
      exact .inr ⟨hpoint, hw, h.1.symm, h.2.symm⟩

theorem readFraction?_append {whole cs rest : List Char} {n : Numeral}
    (h : readFraction? whole cs = some (n, rest)) : n.text ++ rest = whole ++ cs := by
  rcases readFraction?_eq_some h with ⟨after, rfl, -, rfl, rfl⟩ | ⟨-, -, rfl, rfl⟩
  · simp [text]
  · rfl

theorem readFraction?_text_ne_nil {whole cs rest : List Char} {n : Numeral}
    (h : readFraction? whole cs = some (n, rest)) : n.text ≠ [] := by
  rcases readFraction?_eq_some h with ⟨after, rfl, -, rfl, rfl⟩ | ⟨-, hw, rfl, rfl⟩
  · simp [text]
  · exact hw

/-- Nothing is lost: a numeral is the text in front of what is left. -/
theorem read?_append {cs rest : List Char} {n : Numeral} (h : read? cs = some (n, rest)) :
    n.text ++ rest = cs :=
  (readFraction?_append h).trans List.takeWhile_append_dropWhile

theorem read?_text_ne_nil {cs rest : List Char} {n : Numeral} (h : read? cs = some (n, rest)) :
    n.text ≠ [] :=
  readFraction?_text_ne_nil h

end Numeral

end FourFunction
