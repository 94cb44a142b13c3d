import FourFunction.Proofs.Decimal.Significant
import FourFunction.Proofs.Expr.RoundTrip

/-! Printed results that are read again. The text of a result in fixed notation is a numeral, and
the double nearest to it has the same text, since six digits are far fewer than a double can hold.
All other texts are refused. -/

namespace FourFunction

open Text Numeric Grammar

/-! ## Sources without a tree -/

/-- A text that splits has no characters but blanks and those of numerals and symbols. -/
theorem Splits.char_cases {ls : List Lexeme} {cs : List Char} (h : Splits ls cs) :
    ∀ c ∈ cs, c ∈ blanks ∨ (c.isDigit ∨ c = '.') ∨ ∃ s : Symbol, s.toChar = c := by
  induction h with
  | blank hgap =>
      intro c hc
      exact .inl (hgap hc)
  | @lexeme gap cs l ls hgap hl _ ih =>
      intro c hc
      rw [List.mem_append, List.mem_append] at hc
      rcases hc with (hc | hc) | hc
      · exact .inl (hgap hc)
      · right
        cases l with
        | numeral n => exact .inl (Numeral.Proper.isDigit_or_point hl c hc)
        | symbol s => exact .inr ⟨s, (List.mem_singleton.mp hc).symm⟩
        | unmatched u => exact hl.elim
      · exact ih c hc

namespace Grammar

variable {source : String}

theorem exists_cause_of_not_parse (h : ∀ e, parse source ≠ .ok e) :
    ∃ cause, parse source = .error (.grammar cause) := by
  cases hp : parse source with
  | ok e => exact absurd hp (h e)
  | error error =>
      obtain ⟨cause, rfl, -⟩ := verdictOf_of_parse_eq_error hp
      exact ⟨cause, rfl⟩

/-- No other character stands in an accepted source. -/
theorem exists_cause_of_mem {c : Char} (hc : c ∈ source.toList) (hblank : c ∉ blanks)
    (hdigit : c.isDigit = false ∧ c ≠ '.') (hsymbol : Symbol.ofChar? c = none) :
    ∃ cause, parse source = .error (.grammar cause) := by
  apply exists_cause_of_not_parse
  intro e he
  rcases (splits_of_parse he).char_cases c hc with hb | (hd | hd) | ⟨s, rfl⟩
  · exact hblank hb
  · simp [hdigit.1] at hd
  · exact hdigit.2 hd
  · simp at hsymbol

/-- No accepted source starts with an operator. -/
theorem exists_cause_of_operator (op : Operator) {cs : List Char}
    (htext : source.toList = op.toChar :: cs) :
    ∃ cause, parse source = .error (.grammar cause) := by
  apply exists_cause_of_not_parse
  intro e he
  have hrest : (Cursor.first source.toList).rest =
      [] ++ (Lexeme.symbol (.operator op)).text ++ cs := htext
  have hread := Cursor.read?_of_splits hrest (List.forall_mem_nil _) trivial trivial
  have hthrough := (derives_of_parse he).through 0 (by omega)
  rw [lexemes, Cursor.lexemes_of_read?_eq_some hread, List.map_cons, Stage.through_cons]
    at hthrough
  simp [Stage.advance, Lexeme.token] at hthrough

/-- The text of a numeral is parsed to its value. -/
theorem parse_numeral {n : Numeral} (hn : n.Proper) :
    parse (String.ofList n.text) = .ok (.literal n.value) := by
  have hsplits : Splits [.numeral n] (String.ofList n.text).toList := by
    rw [String.toList_ofList]
    exact Lexeme.Proper.splits (l := .numeral n) hn
  exact parse_of_splits hsplits (Derives.number n).toExpression (Nat.zero_le maxNesting)

end Grammar

/-! ## Texts of results -/

namespace Decimal

/-- The exponent of the leading digit after rounding is that of fixed notation. -/
def CallsForFixed (d : Decimal) : Prop :=
  -4 ≤ d.exponent + 5 ∧ d.exponent + 5 ≤ 5

/-- A result is shown in fixed notation without a sign. -/
def InFixedNotation (x : Float) : Prop :=
  ∃ q, Reading.ofFloat x = .finite false q ∧ (q = 0 ∨ (significant q).CallsForFixed)

/-- The rationals shown in fixed notation. Those just below one ten-thousandth are rounded up to it,
and those just below a million are no longer among them. -/
theorem callsForFixed_iff {q : Rat} (hq : 0 < q) :
    (significant q).CallsForFixed ↔ 1999999 / 2 / 10 ^ 10 ≤ q ∧ q < 1999999 / 2 := by
  have hlow := le_exponent_iff hq (-9)
  have hhigh := le_exponent_iff hq 1
  norm_num at hlow hhigh
  rw [CallsForFixed]
  norm_num
  rw [← hlow, ← not_le, ← hhigh]
  omega

theorem stripTrailingZeros_toDigits (n : Nat) :
    stripTrailingZeros (Nat.toDigits 10 n) = Nat.toDigits 10 n :=
  (Numeral.text_stripped (Numeral.ofNat_proper n) Nat.toDigits_ne_nil).symm

theorem generalMagnitude_of_fixed {q : Rat} (hq : 0 < q) (h : (significant q).CallsForFixed) :
    generalMagnitude q = (significant q).positional := by
  obtain ⟨hlow, hhigh⟩ := h
  obtain ⟨-, -, hdigits, -⟩ := significant_spec hq
  obtain ⟨k, hk⟩ := Int.eq_ofNat_of_zero_le (show 0 ≤ -(significant q).exponent by omega)
  have hplaces : (5 - ((significant q).exponent + 5)).toNat = k := by omega
  rw [hk] at hdigits
  rw [generalMagnitude, if_neg (by omega), hplaces, fixed, power_eq_zpow, Nat.cast_ofNat, hdigits,
    Int.toNat_natCast, positional, hk, Int.toNat_natCast]
  split
  next h =>
    obtain rfl : k = 0 := by omega
    have hzero : (significant q).exponent.toNat = 0 := by omega
    rw [hzero]
    simpa [pointed] using stripTrailingZeros_toDigits _
  · rfl

theorem generalMagnitude_of_scientific {q : Rat} (h : ¬ (significant q).CallsForFixed) :
    generalMagnitude q = scientific (significant q) := by
  rw [CallsForFixed] at h
  exact if_pos (by omega)

/-! ## Six digits and the nearest double -/

section SixDigits

variable {d : Decimal} (hlower : 100000 ≤ d.digits) (hupper : d.digits < 1000000)
  (h : d.CallsForFixed)

include hlower hupper h

/-- Decimals in fixed notation lie well inside the range of the doubles. -/
theorem value_bounds : (2 : Rat) ^ (-1022 : Int) ≤ d.value ∧ d.value < 2 ^ (1023 : Int) := by
  obtain ⟨hlow, hhigh⟩ := h
  have hdlower : (100000 : Rat) ≤ d.digits := by exact_mod_cast hlower
  have hdupper : (d.digits : Rat) < 1000000 := by exact_mod_cast hupper
  rw [value_eq]
  constructor
  · calc
      (2 : Rat) ^ (-1022 : Int) ≤ 2 ^ (-14 : Int) := zpow_le_zpow_right₀ (by norm_num) (by norm_num)
      _ ≤ 100000 * 10 ^ (-9 : Int) := by norm_num
      _ ≤ d.digits * 10 ^ d.exponent := by
        gcongr
        · norm_num
        · omega
  · calc
      d.digits * (10 : Rat) ^ d.exponent ≤ d.digits * 10 ^ (0 : Int) := by
        gcongr
        · norm_num
        · omega
      _ < 2 ^ (20 : Int) := by
        norm_num
        linarith
      _ ≤ 2 ^ (1023 : Int) := zpow_le_zpow_right₀ (by norm_num) (by norm_num)

/-- In units of the sixth digit the nearest double is much less than a half away. -/
theorem abs_nearest_units_sub_lt :
    |magnitudeOfPattern (nearestPattern d.value) * 10 ^ (-d.exponent) - d.digits| < 1 / 20 := by
  obtain ⟨hlo, hhi⟩ := value_bounds hlower hupper h
  have hdupper : (d.digits : Rat) < 1000000 := by exact_mod_cast hupper
  have hexact : d.value * 10 ^ (-d.exponent) = d.digits := by
    rw [value_eq, mul_assoc, ← zpow_add₀ (by norm_num), add_neg_cancel, zpow_zero, mul_one]
  have hunit : (0 : Rat) < 10 ^ (-d.exponent) := by positivity
  calc
    |magnitudeOfPattern (nearestPattern d.value) * 10 ^ (-d.exponent) - d.digits| =
        |magnitudeOfPattern (nearestPattern d.value) - d.value| * 10 ^ (-d.exponent) := by
      rw [← hexact, ← sub_mul, abs_mul, abs_of_pos hunit]
    _ ≤ d.value / 2 ^ 53 * 10 ^ (-d.exponent) := by
      gcongr
      exact abs_magnitudeOfPattern_sub_le hlo hhi
    _ = d.digits / 2 ^ 53 := by rw [div_mul_eq_mul_div, hexact]
    _ < 1 / 20 := by
      rw [div_lt_iff₀ (by positivity)]
      linarith

/-- The double nearest to a decimal of six digits is finite, and it is rounded to that decimal. -/
theorem exists_ofFloat_nearestFloat :
    ∃ w, Reading.ofFloat (nearestFloat d.value) = .finite false w ∧ 0 < w ∧ significant w = d := by
  obtain ⟨hlo, hhi⟩ := value_bounds hlower hupper h
  have hnear := abs_nearest_units_sub_lt hlower hupper h
  have hpos : 0 < d.value := lt_of_lt_of_le (by positivity) hlo
  have hunits : 0 < magnitudeOfPattern (nearestPattern d.value) * (10 : Rat) ^ (-d.exponent) := by
    have hdlower : (100000 : Rat) ≤ d.digits := by exact_mod_cast hlower
    linarith [(abs_lt.mp hnear).1]
  refine ⟨_, ?_, pos_of_mul_pos_left hunits (by positivity), significant_eq hlower hupper hnear⟩
  rw [ofFloat_nearestFloat, if_pos (magnitudeOfPattern_nearestPattern hpos hhi).1]

end SixDigits

/-! ## Results in fixed notation -/

theorem general_of_finite {x : Float} {negative : Bool} {q : Rat}
    (hx : Reading.ofFloat x = .finite negative q) (hq : 0 < q) :
    general x = signText negative ++ generalMagnitude q := by
  rw [general, hx]
  simp [hq.ne']

theorem general_of_unsigned {x : Float} {q : Rat} (hx : Reading.ofFloat x = .finite false q)
    (hq : 0 < q) : general x = generalMagnitude q :=
  general_of_finite hx hq

theorem magnitude_pos {x : Float} {negative : Bool} {q : Rat}
    (hx : Reading.ofFloat x = .finite negative q) (hzero : q ≠ 0) : 0 < q := by
  obtain ⟨p, -, rfl⟩ := exists_pattern hx
  exact lt_of_le_of_ne (magnitudeOfPattern_nonneg p) hzero.symm

/-- A result in fixed notation is shown as a numeral whose value is shown in the same way. -/
theorem exists_numeral_general {x : Float} (h : InFixedNotation x) :
    ∃ n : Numeral, n.Proper ∧ n.text = general x ∧ general n.value = general x := by
  obtain ⟨q, hx, hfixed⟩ := h
  by_cases hzero : q = 0
  · subst hzero
    have hvalue : (Numeral.ofNat 0).value = x := by
      apply nearestFloat_eq
      obtain ⟨hfinite, hq⟩ := ofFloat_eq_finite hx
      rw [Numeral.denotes_ofNat, Nat.cast_zero, hq, nearestPattern_magnitudeOfPattern hfinite.le]
    refine ⟨.ofNat 0, Numeral.ofNat_proper 0, ?_, by rw [hvalue]⟩
    rw [general, hx]
    rfl
  · have hq := magnitude_pos hx hzero
    have hcalls := hfixed.resolve_left hzero
    obtain ⟨hlower, hupper, -⟩ := significant_spec hq
    obtain ⟨w, hw, hwpos, hsame⟩ := exists_ofFloat_nearestFloat hlower hupper hcalls
    obtain ⟨n, hn, htext, hdenotes⟩ := (significant q).exists_reduced_positional
    have hshown : general x = (significant q).positional := by
      rw [general_of_unsigned hx hq, generalMagnitude_of_fixed hq hcalls]
    refine ⟨n, hn.proper, htext.trans hshown.symm, ?_⟩
    rw [Numeral.value, hdenotes, general_of_unsigned hw hwpos,
      generalMagnitude_of_fixed hwpos (hsame ▸ hcalls), hsame, hshown]

theorem parse_general_of_fixed {x : Float} (h : InFixedNotation x) :
    ∃ w, parse (generalText x) = .ok (.literal w) ∧ generalText w = generalText x := by
  obtain ⟨n, hn, htext, hsame⟩ := exists_numeral_general h
  refine ⟨n.value, ?_, congrArg String.ofList hsame⟩
  rw [generalText, ← htext]
  exact parse_numeral hn

/-- No letter stands in a result in fixed notation. -/
theorem not_mem_general_of_fixed {x : Float} (h : InFixedNotation x) : 'e' ∉ general x := by
  obtain ⟨n, hn, htext, -⟩ := exists_numeral_general h
  intro hmem
  rw [← htext] at hmem
  have hno := hn.isDigit_or_point 'e' hmem
  simp at hno

/-! ## Other results -/

theorem mem_general_of_scientific {x : Float} {q : Rat} (hx : Reading.ofFloat x = .finite false q)
    (h : ¬ InFixedNotation x) : 'e' ∈ general x := by
  have hzero : q ≠ 0 := fun hq => h ⟨q, hx, .inl hq⟩
  have hq := magnitude_pos hx hzero
  rw [general_of_unsigned hx hq, generalMagnitude_of_scientific fun hq => h ⟨q, hx, .inr hq⟩,
    scientific]
  simp

/-- The text of a result that is not in fixed notation, or has a sign, is refused. -/
theorem parse_general_of_not_fixed {x : Float} (h : ¬ InFixedNotation x) :
    ∃ cause, parse (generalText x) = .error (.grammar cause) := by
  cases hx : Reading.ofFloat x with
  | nan =>
      apply exists_cause_of_mem (c := 'N') _ (by decide) (by decide) (by decide)
      simp [generalText, general, hx]
  | infinite negative =>
      apply exists_cause_of_mem (c := 'I') _ (by decide) (by decide) (by decide)
      simp [generalText, general, hx]
  | finite negative q =>
      cases negative with
      | true =>
          apply exists_cause_of_operator .sub
          rw [generalText, String.toList_ofList, general, hx]
          rfl
      | false =>
          apply exists_cause_of_mem (c := 'e') _ (by decide) (by decide) (by decide)
          rw [generalText, String.toList_ofList]
          exact mem_general_of_scientific hx h

/-! ## All results -/

/-- What becomes of a result whose text is read again. If it was shown in fixed notation and without
a sign, it is read as a literal that may be another double but is shown in the same way. All other
results are refused. -/
structure ReadsAgain (x : Float) : Prop where
  accepted_iff : (∃ e, parse (generalText x) = .ok e) ↔ InFixedNotation x
  refused : ¬ InFixedNotation x → ∃ cause, parse (generalText x) = .error (.grammar cause)
  literal : ∀ e, parse (generalText x) = .ok e →
    ∃ w, e = .literal w ∧ generalText w = generalText x
  line : InFixedNotation x → ∃ c, calculate (generalText x) = .ok c ∧
    c.line = generalText x ++ " = " ++ generalText x
  exponent_iff : ∀ q, Reading.ofFloat x = .finite false q →
    (InFixedNotation x ↔ 'e' ∉ general x)
  fixed_iff : InFixedNotation x ↔ ∃ q, Reading.ofFloat x = .finite false q ∧
    (q = 0 ∨ 1999999 / 2 / 10 ^ 10 ≤ q ∧ q < 1999999 / 2)

theorem calculate_of_literal {source : String} {w : Float} (h : parse source = .ok (.literal w)) :
    calculate source = .ok ⟨source, w⟩ := by
  rw [calculate_of_parse h, Expr.evaluate, Expr.evaluateWith_eq_value, Expr.value]

/-- A result that is printed and read again is shown as before, or it is refused. -/
theorem readsAgain (x : Float) : ReadsAgain x where
  accepted_iff := by
    constructor
    · rintro ⟨e, he⟩
      by_contra hno
      obtain ⟨cause, hcause⟩ := parse_general_of_not_fixed hno
      simp [hcause] at he
    · intro h
      obtain ⟨w, hparse, -⟩ := parse_general_of_fixed h
      exact ⟨_, hparse⟩
  refused := parse_general_of_not_fixed
  literal := by
    intro e he
    by_cases h : InFixedNotation x
    · obtain ⟨w, hparse, hsame⟩ := parse_general_of_fixed h
      rw [hparse] at he
      exact ⟨w, (Except.ok.inj he).symm, hsame⟩
    · obtain ⟨cause, hcause⟩ := parse_general_of_not_fixed h
      simp [hcause] at he
  line := by
    intro h
    obtain ⟨w, hparse, hsame⟩ := parse_general_of_fixed h
    refine ⟨_, calculate_of_literal hparse, ?_⟩
    rw [Calculation.line, hsame]
  exponent_iff := by
    intro q hx
    constructor
    · exact not_mem_general_of_fixed
    · intro hno
      by_contra h
      exact hno (mem_general_of_scientific hx h)
  fixed_iff := by
    apply exists_congr
    intro q
    apply and_congr_right
    intro hx
    by_cases hzero : q = 0
    · simp [hzero]
    · have hq := magnitude_pos hx hzero
      simp only [hzero, false_or]
      exact callsForFixed_iff hq

end Decimal

end FourFunction
