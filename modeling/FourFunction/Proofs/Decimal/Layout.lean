import FourFunction.Decimal.Shortest
import FourFunction.Proofs.Lexeme.Proper
import FourFunction.Proofs.Numeric.Nearest
import Mathlib.Tactic.Positivity

/-! Decimals as texts. The digits of a decimal with a point among them are a numeral, and the numeral
denotes the decimal whether or not the zeros at its end are written. -/

namespace FourFunction

open Numeric

/-! ## Removal at the end of a text -/

namespace Text

theorem dropTrailing_append (p : Char → Bool) (cs : List Char) :
    dropTrailing p cs ++ (cs.reverse.takeWhile p).reverse = cs := by
  rw [dropTrailing, ← List.reverse_append, List.takeWhile_append_dropWhile, List.reverse_reverse]

theorem isPrefix_dropTrailing (p : Char → Bool) (cs : List Char) : dropTrailing p cs <+: cs :=
  ⟨_, dropTrailing_append p cs⟩

theorem exists_dropTrailing_append_replicate (c : Char) (cs : List Char) :
    ∃ k, dropTrailing (· == c) cs ++ List.replicate k c = cs := by
  have hzeros : (cs.reverse.takeWhile (· == c)).reverse =
      List.replicate (cs.reverse.takeWhile (· == c)).reverse.length c := by
    refine List.eq_replicate_of_mem ?_
    intro d hd
    simpa using List.mem_takeWhile_imp (List.mem_reverse.mp hd)
  refine ⟨(cs.reverse.takeWhile (· == c)).reverse.length, ?_⟩
  rw [← hzeros]
  exact dropTrailing_append (· == c) cs

theorem eq_false_of_mem_getLast?_dropTrailing {p : Char → Bool} {cs : List Char} {c : Char}
    (h : c ∈ (dropTrailing p cs).getLast?) : p c = false := by
  rw [dropTrailing, List.getLast?_reverse] at h
  exact eq_false_of_mem_head?_dropWhile h

theorem dropTrailing_append_of_pos {p : Char → Bool} {ys : List Char} (h : ∀ c ∈ ys, p c)
    (xs : List Char) : dropTrailing p (xs ++ ys) = dropTrailing p xs := by
  have hreverse : ∀ c ∈ ys.reverse, p c := fun c hc => h c (List.mem_reverse.mp hc)
  rw [dropTrailing, List.reverse_append, List.dropWhile_append_of_pos hreverse, dropTrailing]

theorem dropTrailing_eq_self {p : Char → Bool} {cs : List Char}
    (h : ∀ c ∈ cs.getLast?, p c = false) : dropTrailing p cs = cs := by
  rcases List.eq_nil_or_concat' cs with rfl | ⟨init, last, rfl⟩
  · rfl
  · exact dropTrailing_concat_neg (h last (by simp)) init

theorem dropTrailing_append_cons {p : Char → Bool} {c : Char} (hc : p c = false)
    (xs ys : List Char) : dropTrailing p (xs ++ c :: ys) = xs ++ c :: dropTrailing p ys := by
  induction ys using List.reverseRecOn with
  | nil => exact dropTrailing_concat_neg hc xs
  | append_singleton ys y ih =>
      rw [← List.cons_append, ← List.append_assoc]
      by_cases hy : p y
      · rw [dropTrailing_concat_pos hy, dropTrailing_concat_pos hy, ih]
      · have hkept : p y = false := by simpa using hy
        rw [dropTrailing_concat_neg hkept, dropTrailing_concat_neg hkept, List.append_assoc]
        rfl

end Text

/-! ## Numerals for natural numbers and their parts -/

namespace Numeral

/-- The digits of a natural number, without a point. -/
def ofNat (n : Nat) : Numeral :=
  ⟨Nat.toDigits 10 n, none⟩

theorem ofNat_proper (n : Nat) : (ofNat n).Proper :=
  ⟨fun _ hc => Nat.isDigit_of_mem_toDigits (by decide) (by decide) hc,
    List.forall_mem_nil _, .inl Nat.toDigits_ne_nil⟩

theorem denotes_eq (n : Numeral) : n.denotes =
    (Nat.ofDigitChars 10 (n.whole ++ n.fractionDigits) 0 : Rat) / 10 ^ n.fractionDigits.length := by
  rw [denotes, Rat.mkRat_eq_div]
  simp

theorem denotes_ofNat (n : Nat) : (ofNat n).denotes = n := by
  simp [denotes_eq, ofNat, fractionDigits, Nat.ofDigitChars_ten_toDigits]

/-- `n` units of the place `10 ^ -places`, with no point when there are no places. -/
def ofUnits (places n : Nat) : Numeral :=
  if places = 0 then ofNat n
  else
    let unit := Nat.pow 10 places
    ⟨Nat.toDigits 10 (n / unit), some (List.leftpad places '0' (Nat.toDigits 10 (n % unit)))⟩

theorem text_ofUnits (places n : Nat) : (ofUnits places n).text = Decimal.pointed places n := by
  rw [ofUnits, Decimal.pointed]
  split <;> rfl

theorem length_leftpad_toDigits {places n : Nat} (hplaces : places ≠ 0) :
    (List.leftpad places '0' (Nat.toDigits 10 (n % 10 ^ places))).length = places := by
  have hlength : (Nat.toDigits 10 (n % 10 ^ places)).length ≤ places :=
    (Nat.length_toDigits_le_iff (by decide) (Nat.pos_of_ne_zero hplaces)).mpr
      (Nat.mod_lt _ (by positivity))
  rw [List.length_leftpad]
  omega

theorem isDigit_of_mem_zeros {k : Nat} {c : Char} (hc : c ∈ List.replicate k '0') : c.isDigit := by
  rw [List.eq_of_mem_replicate hc]
  rfl

theorem ofUnits_proper (places n : Nat) : (ofUnits places n).Proper := by
  rw [ofUnits]
  split
  · exact ofNat_proper n
  · refine ⟨fun _ hc => Nat.isDigit_of_mem_toDigits (by decide) (by decide) hc, ?_,
      .inl Nat.toDigits_ne_nil⟩
    intro c hc
    rcases List.mem_append.mp hc with hc | hc
    · exact isDigit_of_mem_zeros hc
    · exact Nat.isDigit_of_mem_toDigits (by decide) (by decide) hc

theorem whole_ofUnits_ne_nil (places n : Nat) : (ofUnits places n).whole ≠ [] := by
  rw [ofUnits]
  split <;> exact Nat.toDigits_ne_nil

theorem denotes_ofUnits (places n : Nat) :
    (ofUnits places n).denotes = (n : Rat) / 10 ^ places := by
  rw [ofUnits]
  split
  next h => simp [h, denotes_ofNat]
  next h =>
    have hlength := length_leftpad_toDigits (n := n) h
    have hfraction : Nat.ofDigitChars 10
        (List.leftpad places '0' (Nat.toDigits 10 (n % 10 ^ places))) 0 = n % 10 ^ places := by
      rw [List.leftpad, Nat.ofDigitChars_append, Nat.ofDigitChars_replicate_zero, Nat.mul_zero,
        Nat.ofDigitChars_ten_toDigits]
    change denotes ⟨Nat.toDigits 10 (n / 10 ^ places),
      some (List.leftpad places '0' (Nat.toDigits 10 (n % 10 ^ places)))⟩ = _
    simp only [denotes_eq, fractionDigits, Option.getD_some]
    rw [Nat.ofDigitChars_append, Nat.ofDigitChars_ten_toDigits,
      Nat.ofDigitChars_eq_ofDigitChars_zero, hlength, hfraction, Nat.div_add_mod]

/-! ## Zeros at the end of a fraction -/

/-- A numeral without the zeros at the end of its fraction, and without the point if no fraction is
left. -/
def stripped : Numeral → Numeral
  | ⟨whole, none⟩ => ⟨whole, none⟩
  | ⟨whole, some fraction⟩ =>
    let kept := Text.dropTrailing (· == '0') fraction
    ⟨whole, if kept = [] then none else some kept⟩

theorem stripped_fractionDigits (whole fraction : List Char) :
    (stripped ⟨whole, some fraction⟩).fractionDigits =
      Text.dropTrailing (· == '0') fraction := by
  simp only [stripped, fractionDigits]
  split
  next h => exact h.symm
  · rfl

theorem denotes_append_zeros (whole fraction : List Char) (k : Nat) :
    denotes ⟨whole, some (fraction ++ List.replicate k '0')⟩ = denotes ⟨whole, some fraction⟩ := by
  simp only [denotes_eq, fractionDigits, Option.getD_some, ← List.append_assoc,
    Nat.ofDigitChars_append, Nat.ofDigitChars_replicate_zero, List.length_append,
    List.length_replicate, pow_add]
  push_cast
  field_simp

/-- Zeros at the end of the fraction do not change what a numeral denotes. -/
theorem denotes_stripped (n : Numeral) : n.stripped.denotes = n.denotes := by
  obtain ⟨whole, fraction⟩ := n
  cases fraction with
  | none => rfl
  | some fraction =>
      obtain ⟨k, hk⟩ := Text.exists_dropTrailing_append_replicate '0' fraction
      calc
        (stripped ⟨whole, some fraction⟩).denotes =
            denotes ⟨whole, some (Text.dropTrailing (· == '0') fraction)⟩ := by
          rw [denotes, denotes, stripped_fractionDigits]
          rfl
        _ = denotes ⟨whole, some fraction⟩ := by
          conv_rhs => rw [← hk]
          exact (denotes_append_zeros _ _ k).symm

theorem ne_point_of_isDigit {c : Char} (hc : c.isDigit) : c ≠ '.' := by
  rintro rfl
  exact absurd hc (by decide)

theorem beq_point_of_isDigit {c : Char} (hc : c.isDigit) : (c == '.') = false :=
  beq_eq_false_iff_ne.mpr (ne_point_of_isDigit hc)

/-- Removal at the end of the text of a numeral leaves the digits before the point alone. -/
theorem text_stripped {n : Numeral} (hn : n.Proper) (hwhole : n.whole ≠ []) :
    n.stripped.text = Decimal.stripTrailingZeros n.text := by
  obtain ⟨whole, fraction⟩ := n
  cases fraction with
  | none =>
      have hnone : ¬ whole.contains '.' := by
        rw [List.contains_iff_mem]
        intro hmem
        exact absurd (hn.1 '.' hmem) (by decide)
      exact (if_neg hnone).symm
  | some fraction =>
      have hsome : (text ⟨whole, some fraction⟩).contains '.' := by simp [text]
      rw [Decimal.stripTrailingZeros, if_pos hsome, text,
        Text.dropTrailing_append_cons (by decide)]
      by_cases hkept : Text.dropTrailing (· == '0') fraction = []
      · have hdigits : Text.dropTrailing (· == '.') whole = whole :=
          Text.dropTrailing_eq_self fun c hc =>
            beq_point_of_isDigit (hn.1 c (List.mem_of_getLast? hc))
        rw [stripped, if_pos hkept, hkept, Text.dropTrailing_concat_pos (by decide), hdigits]
        rfl
      · obtain ⟨ds, last, hlast⟩ := (List.eq_nil_or_concat' _).resolve_left hkept
        have hmem : last ∈ fraction := by
          rw [← Text.dropTrailing_append (· == '0') fraction, hlast]
          simp
        have hpoint := beq_point_of_isDigit (hn.2.1 last hmem)
        rw [stripped, if_neg hkept, hlast, ← List.cons_append, ← List.append_assoc,
          Text.dropTrailing_concat_neg (p := (· == '.')) hpoint, text, List.append_assoc,
          List.cons_append]

end Numeral

namespace Decimal

theorem value_eq (d : Decimal) : d.value = d.digits * (10 : Rat) ^ d.exponent := by
  rw [value, power_eq_zpow, Rat.mkRat_one]
  rfl

end Decimal

end FourFunction
