import FourFunction.Decimal.SixDigits
import FourFunction.Proofs.Decimal.Reduced
import FourFunction.Proofs.Decimal.Reparse
import FourFunction.Proofs.Decimal.Rounded

/-! What the general format shows of a finite double: the decimal of six digits to which the double
is rounded, written in the shortest way. Text with an exponent is always taken apart again, and the
second rounding of fixed notation finds the digits of the first. -/

namespace FourFunction

open Text Numeric

/-! ## Exponents as texts -/

namespace Decimal

theorem readSign_numeral {n : Numeral} (hn : n.Proper) : readSign n.text = (false, n.text) := by
  have hsign : ∀ c ∈ n.text, c ≠ '-' ∧ c ≠ '+' := by
    intro c hc
    rcases hn.isDigit_or_point c hc with hdigit | rfl
    · constructor <;> rintro rfl <;> exact absurd hdigit (by decide)
    · decide
  rw [readSign.eq_3]
  · intro ds hds
    exact (hsign '-' (by simp [hds])).1 rfl
  · intro ds hds
    exact (hsign '+' (by simp [hds])).2 rfl

theorem readSign_toDigits (n : Nat) : readSign (Nat.toDigits 10 n) = (false, Nat.toDigits 10 n) :=
  readSign_numeral (Numeral.ofNat_proper n)

theorem readSign_integerText (z : Int) :
    readSign (integerText z) = (decide (z < 0), Nat.toDigits 10 z.natAbs) := by
  rw [integerText, signText]
  by_cases hz : z < 0
  · rw [decide_eq_true hz]
    rfl
  · rw [decide_eq_false hz]
    exact readSign_toDigits _

/-- An integer of 32 bits is read back from its text. -/
theorem readInteger?_integerText {z : Int} (hlower : -2147483648 ≤ z) (hupper : z < 2147483648) :
    readInteger? (integerText z) = some z := by
  have hall : (Nat.toDigits 10 z.natAbs).all Char.isDigit = true :=
    List.all_eq_true.mpr fun _ hc => Nat.isDigit_of_mem_toDigits (by decide) (by decide) hc
  have hvalue : (if decide (z < 0) = true then -(z.natAbs : Int) else z.natAbs) = z := by
    simp only [decide_eq_true_eq]
    split <;> omega
  rw [readInteger?, readSign_integerText]
  simp only [Nat.ofDigitChars_ten_toDigits, hvalue]
  exact if_pos ⟨Nat.toDigits_ne_nil, hall, hlower, hupper⟩

/-- The decimal exponents of doubles are far from the ends of the 32-bit integers. -/
theorem readInteger?_exponent {x : Float} {negative : Bool} {q : Rat}
    (hx : Reading.ofFloat x = .finite negative q) (hq : 0 < q) :
    readInteger? (integerText ((significant q).exponent + 5)) =
      some ((significant q).exponent + 5) := by
  obtain ⟨p, hp, rfl⟩ := exists_pattern hx
  obtain ⟨hlower, hupper⟩ := magnitudeOfPattern_bounds hp hq
  obtain ⟨hfirst, hlast⟩ := exponent_bounds hq hlower hupper
  exact readInteger?_integerText (by omega) (by omega)

/-- The exponent of scientific notation has a sign and two digits or more: below ten a zero stands
before the only digit. -/
theorem exponentText_eq (e : Int) :
    exponentText e = (if e < 0 then '-' else '+') ::
      ((if e.natAbs < 10 then ['0'] else []) ++ Nat.toDigits 10 e.natAbs) := by
  by_cases h : e.natAbs < 10
  · rw [exponentText, Nat.toDigits_of_lt_base h, if_pos h]
    rfl
  · have hlength : ¬ (Nat.toDigits 10 e.natAbs).length ≤ 1 := by
      rw [Nat.length_toDigits_le_iff (by decide) (by decide)]
      exact h
    rw [exponentText, List.leftpad, if_neg h, Nat.sub_eq_zero_of_le (by omega)]
    rfl

/-! ## The text taken apart -/

theorem not_mem_signed_pointed (negative : Bool) (places n : Nat) :
    'e' ∉ signText negative ++ pointed places n := by
  intro hmem
  rcases List.mem_append.mp hmem with hsign | hdigits
  · cases negative <;> simp [signText] at hsign
  · rw [← Numeral.text_ofUnits] at hdigits
    have hno := (Numeral.ofUnits_proper places n).isDigit_or_point 'e' hdigits
    simp at hno

theorem splitFirst?_sixDigitText (negative : Bool) (q : Rat) :
    splitFirst? 'e' (sixDigitText negative q) =
      some (signText negative ++ pointed 5 (significant q).digits,
        integerText ((significant q).exponent + 5)) :=
  splitFirst?_append_cons (not_mem_signed_pointed negative 5 _) _

/-- A sign is not among what is removed at the end. -/
theorem stripTrailingZeros_signed (negative : Bool) (cs : List Char) :
    stripTrailingZeros (signText negative ++ cs) = signText negative ++ stripTrailingZeros cs := by
  cases negative with
  | false => rfl
  | true =>
      have hcontains : ('-' :: cs).contains '.' = cs.contains '.' := by simp
      change stripTrailingZeros ('-' :: cs) = '-' :: stripTrailingZeros cs
      rw [stripTrailingZeros, stripTrailingZeros, hcontains]
      split
      · have hzeros := dropTrailing_append_cons (p := (· == '0')) (c := '-') (by decide) [] cs
        have hpoints := dropTrailing_append_cons (p := (· == '.')) (c := '-') (by decide) []
          (dropTrailing (· == '0') cs)
        simp only [List.nil_append] at hzeros hpoints
        rw [hzeros, hpoints]
      · rfl

/-- The text is never shown as it is. -/
theorem generalOfText_eq {x : Float} {negative : Bool} {q : Rat}
    (hx : Reading.ofFloat x = .finite negative q) (hq : 0 < q) :
    generalOfText negative q = general x := by
  rw [generalOfText, general_of_finite hx hq, generalMagnitude]
  simp only [splitFirst?_sixDigitText, readInteger?_exponent hx hq]
  split
  · rw [stripTrailingZeros_signed, List.append_assoc]
    rfl
  · rw [placesText, stripTrailingZeros_signed]
    rfl

/-! ## Results -/

/-- The general format of a finite double other than zero, with the decimal of six digits to which
its magnitude is rounded. The decimal decides between the notations, and each writes a numeral in
the shortest way: in scientific notation one digit before the point and the exponent of that digit,
with its sign and in two digits or more, in fixed notation the decimal itself, also if rounding has
carried into the leading digit. -/
structure ShowsSixDigits (x : Float) (negative : Bool) (q : Rat) (d : Decimal) : Prop where
  rounded : ∀ d', IsRounded q d' ↔ d' = d
  scientific : ¬ d.CallsForFixed → ∃ n : Numeral, n.Reduced ∧ n.denotes = d.digits / 10 ^ 5 ∧
    general x = (if negative then ['-'] else []) ++ n.text ++
      'e' :: (if d.exponent + 5 < 0 then '-' else '+') ::
        ((if (d.exponent + 5).natAbs < 10 then ['0'] else []) ++
          Nat.toDigits 10 (d.exponent + 5).natAbs)
  fixed : d.CallsForFixed → ∃ n : Numeral, n.Reduced ∧ n.denotes = d.value ∧
    general x = (if negative then ['-'] else []) ++ n.text
  whole : d.CallsForFixed → ∀ m : Nat, d.value = m →
    general x = (if negative then ['-'] else []) ++ Nat.toDigits 10 m
  places : d.CallsForFixed → 0 ≤ 5 - (d.exponent + 5) ∧
    placesText negative (5 - (d.exponent + 5)).toNat q =
      signText negative ++ pointed (5 - (d.exponent + 5)).toNat d.digits
  parts : splitFirst? 'e' (sixDigitText negative q) =
    some (signText negative ++ pointed 5 d.digits, integerText (d.exponent + 5))
  exponent : readInteger? (integerText (d.exponent + 5)) = some (d.exponent + 5)
  steps : generalOfText negative q = general x

/-- The second rounding finds the digits of the first. -/
theorem placesText_of_fixed {q : Rat} (hq : 0 < q) (h : (significant q).CallsForFixed)
    (negative : Bool) :
    placesText negative (5 - ((significant q).exponent + 5)).toNat q = signText negative ++
      pointed (5 - ((significant q).exponent + 5)).toNat (significant q).digits := by
  obtain ⟨-, hhigh⟩ := h
  obtain ⟨-, -, hdigits, -⟩ := significant_spec hq
  have hplaces : ((5 - ((significant q).exponent + 5)).toNat : Int) = -(significant q).exponent := by
    omega
  rw [placesText, hplaces, power_eq_zpow, Nat.cast_ofNat, hdigits, Int.toNat_natCast]

/-- Every finite double other than zero is shown with six significant digits. -/
theorem showsSixDigits {x : Float} {negative : Bool} {q : Rat}
    (hx : Reading.ofFloat x = .finite negative q) (hzero : q ≠ 0) :
    ∃ d, ShowsSixDigits x negative q d := by
  have hq := magnitude_pos hx hzero
  have hgeneral := general_of_finite hx hq
  obtain ⟨n, hn, htext, hdenotes⟩ := (significant q).exists_reduced_positional
  have hfixed : (significant q).CallsForFixed → general x = signText negative ++ n.text := by
    intro hcalls
    rw [hgeneral, generalMagnitude_of_fixed hq hcalls, htext]
  refine ⟨significant q, ?_⟩
  exact {
    rounded := by
      intro d
      constructor
      · exact fun h => h.eq_significant hq
      · rintro rfl
        exact isRounded_significant hq
    scientific := by
      intro hcalls
      obtain ⟨m, hm, hmtext, hmdenotes⟩ :=
        Numeral.exists_reduced_pointed 5 (significant q).digits
      refine ⟨m, hm, hmdenotes, ?_⟩
      rw [hgeneral, generalMagnitude_of_scientific hcalls, scientific, hmtext, exponentText_eq,
        List.append_assoc]
      rfl
    fixed := fun hcalls => ⟨n, hn, hdenotes, hfixed hcalls⟩
    whole := by
      intro hcalls m hm
      have hdenotesNat : n.denotes = (Numeral.ofNat m).denotes := by
        rw [hdenotes, hm, Numeral.denotes_ofNat]
      rw [hfixed hcalls, hn.eq_of_denotes_eq (Numeral.ofNat_reduced m) hdenotesNat]
      rfl
    places := fun hcalls =>
      ⟨by have := hcalls.2; omega, placesText_of_fixed hq hcalls negative⟩
    parts := splitFirst?_sixDigitText negative q
    exponent := readInteger?_exponent hx hq
    steps := generalOfText_eq hx hq }

/-- Half a unit below a million is rounded up to it, and the exponent that this gives calls for
scientific notation. -/
theorem showsSixDigits_carry :
    Reading.ofFloat (Float.ofBits 0x412e847f00000000) = .finite false (1999999 / 2) ∧
      (1999999 / 2 : Rat) ≠ 0 ∧
      ∃ d, ShowsSixDigits (Float.ofBits 0x412e847f00000000) false (1999999 / 2) d := by
  have hx : Reading.ofFloat (Float.ofBits 0x412e847f00000000) = .finite false (1999999 / 2) := by
    decide +kernel
  have hzero : (1999999 / 2 : Rat) ≠ 0 := by norm_num
  exact ⟨hx, hzero, showsSixDigits hx hzero⟩

end Decimal

end FourFunction
