import FourFunction.Proofs.Decimal.Reduced
import FourFunction.Proofs.Decimal.Reparse
import FourFunction.Text.Split

/-! The line of a calculation can be taken apart again. No equals sign stands in an accepted source or
in the text of a value, so the one between them shows where the source ends. -/

namespace FourFunction

open Text Numeric Grammar

/-! ## Characters of results -/

namespace Decimal

/-- The characters of results other than digits. -/
def resultMarks : List Char := ['.', '-', '+', 'e', 'N', 'a', 'I', 'n', 'f']

/-- The character may stand in a result. -/
def IsResultChar (c : Char) : Prop :=
  c.isDigit ∨ c ∈ resultMarks

theorem isResultChar_signText {negative : Bool} : ∀ c ∈ signText negative, IsResultChar c := by
  cases negative <;> simp [signText, IsResultChar, resultMarks]

theorem isResultChar_numeral {n : Numeral} (hn : n.Proper) : ∀ c ∈ n.text, IsResultChar c := by
  intro c hc
  rcases hn.isDigit_or_point c hc with hdigit | rfl
  · exact .inl hdigit
  · exact .inr (by decide)

theorem isResultChar_exponentText (e : Int) : ∀ c ∈ exponentText e, IsResultChar c := by
  intro c hc
  rw [exponentText, List.leftpad, List.mem_cons, List.mem_append] at hc
  rcases hc with rfl | hc | hc
  · split <;> exact .inr (by decide)
  · exact .inl (Numeral.isDigit_of_mem_zeros hc)
  · exact .inl (Nat.isDigit_of_mem_toDigits (by decide) (by decide) hc)

theorem isResultChar_generalMagnitude {q : Rat} (hq : 0 < q) :
    ∀ c ∈ generalMagnitude q, IsResultChar c := by
  by_cases h : (significant q).CallsForFixed
  · obtain ⟨n, hn, htext, -⟩ := (significant q).exists_reduced_positional
    rw [generalMagnitude_of_fixed hq h, ← htext]
    exact isResultChar_numeral hn.proper
  · obtain ⟨n, hn, htext, -⟩ := Numeral.exists_reduced_pointed 5 (significant q).digits
    rw [generalMagnitude_of_scientific h, scientific, ← htext, List.forall_mem_append,
      List.forall_mem_cons]
    exact ⟨isResultChar_numeral hn.proper, .inr (by decide), isResultChar_exponentText _⟩

/-- Every result is written with these characters. -/
theorem isResultChar_general (x : Float) : ∀ c ∈ general x, IsResultChar c := by
  cases hx : Reading.ofFloat x with
  | nan => simp [general, hx, IsResultChar, resultMarks]
  | infinite negative =>
      rw [general, hx, List.forall_mem_append]
      exact ⟨isResultChar_signText, by simp [IsResultChar, resultMarks]⟩
  | finite negative q =>
      by_cases hzero : q = 0
      · rw [general, hx, List.forall_mem_append, if_pos hzero]
        exact ⟨isResultChar_signText, by simp [IsResultChar]⟩
      · have hq := magnitude_pos hx hzero
        rw [general_of_finite hx hq, List.forall_mem_append]
        exact ⟨isResultChar_signText, isResultChar_generalMagnitude hq⟩

theorem not_mem_general {c : Char} (hdigit : c.isDigit = false) (hmark : c ∉ resultMarks)
    (x : Float) : c ∉ general x := by
  intro hc
  rcases isResultChar_general x c hc with h | h
  · simp [hdigit] at h
  · exact hmark h

end Decimal

/-! ## Characters of accepted sources -/

/-- The characters of accepted sources other than digits and blanks. -/
def sourceMarks : List Char := ['.', '+', '-', '*', '/', '(', ')']

theorem Symbol.toChar_mem_sourceMarks (s : Symbol) : s.toChar ∈ sourceMarks := by
  rcases s with (_ | _ | _ | _) | _ | _ <;> decide

theorem Grammar.char_of_parse {source : String} {e : Expr} (h : parse source = .ok e) :
    ∀ c ∈ source.toList, c.isDigit ∨ c ∈ sourceMarks ∨ c ∈ blanks := by
  intro c hc
  rcases (splits_of_parse h).char_cases c hc with hblank | (hdigit | rfl) | ⟨s, rfl⟩
  · exact .inr (.inr hblank)
  · exact .inl hdigit
  · exact .inr (.inl (by decide))
  · exact .inr (.inl s.toChar_mem_sourceMarks)

theorem Grammar.equals_not_mem_of_parse {source : String} {e : Expr} (h : parse source = .ok e) :
    '=' ∉ source.toList := by
  intro hmem
  have hno := char_of_parse h '=' hmem
  revert hno
  decide

/-! ## Lines -/

namespace Calculation

/-- The parts of a line before and after the last equals sign that has a space on both sides. -/
def partsOfLine? (line : String) : Option (String × String) :=
  (splitLast? " = ".toList line.toList).map fun (source, value) =>
    (String.ofList source, String.ofList value)

theorem toList_line (c : Calculation) :
    c.line.toList = c.expression.toList ++ " = ".toList ++ Decimal.general c.value := by
  rw [line, String.toList_append, Decimal.generalText, String.toList_ofList, String.toList_append]

theorem equals_not_mem_general (x : Float) : '=' ∉ Decimal.general x :=
  Decimal.not_mem_general (by decide) (by decide) x

/-- Whatever the source is, the last equals sign is the one before the value. -/
theorem partsOfLine?_line (c : Calculation) :
    partsOfLine? c.line = some (c.expression, Decimal.generalText c.value) := by
  have hlast : ¬ ' ' :: ['=', ' '] <:+: ['=', ' '] ++ Decimal.general c.value := by
    rintro ⟨before, after, hparts⟩
    cases before with
    | nil => simp at hparts
    | cons b before =>
        have hrest : before ++ [' ', '=', ' '] ++ after = ' ' :: Decimal.general c.value :=
          (List.cons.inj hparts).2
        have hmem : '=' ∈ ' ' :: Decimal.general c.value := by
          rw [← hrest]
          simp
        exact equals_not_mem_general c.value (List.mem_of_ne_of_mem (by decide) hmem)
  have hsplit := splitLast?_append hlast c.expression.toList
  have hmark : " = ".toList = ' ' :: ['=', ' '] := by decide
  rw [partsOfLine?, toList_line, hmark, hsplit]
  simp [Decimal.generalText]

theorem count_line {c : Calculation} (h : '=' ∉ c.expression.toList) :
    c.line.toList.count '=' = 1 := by
  have hvalue := equals_not_mem_general c.value
  rw [toList_line, List.count_append, List.count_append, List.count_eq_zero_of_not_mem h,
    List.count_eq_zero_of_not_mem hvalue]
  decide

/-- The line of a calculation shows where the source in it ends: the source has no equals sign, and
neither has the value. From the source alone the whole line is had again. -/
structure LineDecodes (source : String) (c : Calculation) : Prop where
  alphabet : ∀ b ∈ source.toList, b.isDigit ∨ b ∈ sourceMarks ∨ b ∈ blanks
  count : c.line.toList.count '=' = 1
  parts : partsOfLine? c.line = some (source, Decimal.generalText c.value)
  again : ∀ left right, partsOfLine? c.line = some (left, right) →
    (calculate left).map line = .ok c.line
  injective : ∀ source' c', calculate source' = .ok c' → c'.line = c.line → source' = source

/-- The line of every accepted source can be decoded. -/
theorem lineDecodes {source : String} {c : Calculation} (h : calculate source = .ok c) :
    LineDecodes source c := by
  obtain ⟨e, he, rfl⟩ := exists_parse_of_calculate h
  have hparts := partsOfLine?_line ⟨source, e.evaluate⟩
  refine ⟨char_of_parse he, count_line (equals_not_mem_of_parse he), hparts, ?_, ?_⟩
  · intro left right hline
    rw [hparts] at hline
    obtain ⟨rfl, -⟩ := Prod.mk.inj (Option.some.inj hline)
    rw [h]
    rfl
  · intro source' c' h' hline
    obtain ⟨e', -, rfl⟩ := exists_parse_of_calculate h'
    have hsame := congrArg partsOfLine? hline
    rw [partsOfLine?_line, partsOfLine?_line] at hsame
    exact (Prod.mk.inj (Option.some.inj hsame)).1

theorem lineDecodes_quarter : ∃ c, calculate "1 / 4" = .ok c ∧ c.line = "1 / 4 = 0.25" ∧
    LineDecodes "1 / 4" c := by
  obtain ⟨e, he⟩ := exists_parse_of_verdictOf
    (show verdictOf "1 / 4" = .ok () by decide +kernel)
  have hc := calculate_of_parse he
  have hline : (calculate "1 / 4").map line = .ok "1 / 4 = 0.25" := by
    simp only [calculate_eq_map, Expr.evaluate, Expr.evaluateWith_eq_value]
    decide +kernel
  refine ⟨_, hc, ?_, lineDecodes hc⟩
  rw [hc] at hline
  exact Except.ok.inj hline

end Calculation

end FourFunction
