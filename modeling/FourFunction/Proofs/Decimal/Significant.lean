import FourFunction.Decimal.General
import FourFunction.Proofs.Decimal.Layout
import FourFunction.Proofs.Numeric.Error

/-! Rounding to six significant digits. The digits are determined by any approximation that is good
enough, so they are the same for all rationals near a decimal with six digits. -/

namespace FourFunction.Decimal

open Numeric

/-! ## Leading digits -/

theorem digitCount_pos (n : Nat) : 0 < digitCount n :=
  List.length_pos_iff.mpr Nat.toDigits_ne_nil

theorem lt_ten_pow_digitCount (n : Nat) : n < 10 ^ digitCount n :=
  (Nat.length_toDigits_le_iff (by decide) (digitCount_pos n)).mp le_rfl

theorem ten_pow_digitCount_le {n : Nat} (hn : 0 < n) : 10 ^ (digitCount n - 1) ≤ n := by
  by_contra hlt
  rcases Nat.eq_zero_or_pos (digitCount n - 1) with hzero | hpos
  · rw [hzero] at hlt
    omega
  · have hshort : digitCount n ≤ digitCount n - 1 :=
      (Nat.length_toDigits_le_iff (by decide) hpos).mpr (not_le.mp hlt)
    omega

/-- How often a number is contained in another one, from the digits of their quotient. -/
theorem digitCount_div_bounds {a b k : Nat} (hb : 0 < b) (hle : b ≤ a)
    (hk : digitCount (a / b) = k + 1) : 10 ^ k * b ≤ a ∧ a < 10 ^ (k + 1) * b := by
  constructor
  · have hdigits := ten_pow_digitCount_le (Nat.div_pos hle hb)
    rw [hk, Nat.add_sub_cancel] at hdigits
    exact (Nat.le_div_iff_mul_le hb).mp hdigits
  · have hdigits := lt_ten_pow_digitCount (a / b)
    rw [hk] at hdigits
    exact (Nat.div_lt_iff_lt_mul hb).mp hdigits

/-- The leading exponent is that of the power of ten at or below a rational. -/
theorem leadingExponent_bounds {q : Rat} (hq : 0 < q) :
    (10 : Rat) ^ leadingExponent q ≤ q ∧ q < (10 : Rat) ^ (leadingExponent q + 1) := by
  have hden : (0 : Rat) < q.den := by exact_mod_cast q.den_pos
  have hratio := num_toNat_div_den hq.le
  rw [leadingExponent]
  split
  next hge =>
    obtain ⟨k, hk⟩ := Nat.exists_eq_add_of_le' (digitCount_pos (q.num.toNat / q.den))
    obtain ⟨hle, hlt⟩ := digitCount_div_bounds q.den_pos hge hk
    rw [hk, show ((k + 1 : Nat) : Int) - 1 = k by omega]
    constructor
    · conv_rhs => rw [← hratio]
      rw [le_div_iff₀ hden, zpow_natCast]
      exact_mod_cast hle
    · conv_lhs => rw [← hratio]
      rw [div_lt_iff₀ hden, ← Nat.cast_succ, zpow_natCast]
      exact_mod_cast hlt
  next hless =>
    obtain ⟨k, hk⟩ := Nat.exists_eq_add_of_le' (digitCount_pos ((q.den - 1) / q.num.toNat))
    obtain ⟨hle, hlt⟩ := digitCount_div_bounds (num_toNat_pos hq) (by omega) hk
    rw [hk, show -((k + 1 : Nat) : Int) + 1 = -(k : Int) by omega]
    constructor
    · conv_rhs => rw [← hratio]
      rw [le_div_iff₀ hden, zpow_neg, zpow_natCast, inv_mul_le_iff₀ (by positivity)]
      exact_mod_cast Nat.le_of_pred_lt hlt
    · have hstrict : 10 ^ k * q.num.toNat < q.den := by
        have := q.den_pos
        omega
      conv_lhs => rw [← hratio]
      rw [div_lt_iff₀ hden, zpow_neg, zpow_natCast, ← div_eq_inv_mul,
        lt_div_iff₀ (by positivity), mul_comm]
      exact_mod_cast hstrict

theorem leadingExponent_eq {q : Rat} {e : Int} (hle : (10 : Rat) ^ e ≤ q)
    (hlt : q < (10 : Rat) ^ (e + 1)) : leadingExponent q = e := by
  have hq : 0 < q := lt_of_lt_of_le (by positivity) hle
  obtain ⟨hle', hlt'⟩ := leadingExponent_bounds hq
  have hupper := (zpow_lt_zpow_iff_right₀ (by norm_num)).mp (hle.trans_lt hlt')
  have hlower := (zpow_lt_zpow_iff_right₀ (by norm_num)).mp (hle'.trans_lt hlt)
  omega

/-! ## Six digits -/

/-- A power of ten around a rational, in units of the sixth digit. -/
theorem le_units_iff {q : Rat} {k : Int} : 100000 ≤ q * (10 : Rat) ^ (-k) ↔ 10 ^ (k + 5) ≤ q := by
  rw [zpow_neg, ← div_eq_mul_inv, le_div_iff₀ (by positivity), zpow_add₀ (by norm_num), mul_comm]
  norm_num

theorem units_lt_iff {q : Rat} {k : Int} :
    q * (10 : Rat) ^ (-k) < 1000000 ↔ q < 10 ^ (k + 5 + 1) := by
  rw [zpow_neg, ← div_eq_mul_inv, div_lt_iff₀ (by positivity), add_assoc, zpow_add₀ (by norm_num),
    mul_comm]
  norm_num

/-- A unit of the next digit is a tenth of the one before. -/
theorem units_sub_one (q : Rat) (k : Int) : q * (10 : Rat) ^ (-(k - 1)) = q * 10 ^ (-k) * 10 := by
  rw [neg_sub, sub_eq_add_neg, add_comm, zpow_add_one₀ (by norm_num), mul_assoc]

theorem significant_eq_ite (q : Rat) :
    significant q =
      if nearestEven (q * 10 ^ (-(leadingExponent q - 5))) = 1000000 then
        ⟨100000, leadingExponent q - 5 + 1⟩
      else ⟨(nearestEven (q * 10 ^ (-(leadingExponent q - 5)))).toNat, leadingExponent q - 5⟩ := by
  rw [significant]
  simp only [power_eq_zpow, Nat.cast_ofNat]
  congr 1
  rw [eq_iff_iff]
  omega

/-- A rational is rounded to six digits in units of the sixth, also after a carry. Then it is less
than six digits by no more than half a unit of the next digit. -/
theorem significant_spec {q : Rat} (hq : 0 < q) :
    100000 ≤ (significant q).digits ∧ (significant q).digits < 1000000 ∧
      nearestEven (q * 10 ^ (-(significant q).exponent)) = (significant q).digits ∧
      1999999 / 20 ≤ q * 10 ^ (-(significant q).exponent) := by
  obtain ⟨hle, hlt⟩ := leadingExponent_bounds hq
  obtain ⟨k, hk⟩ : ∃ k, leadingExponent q = k + 5 := ⟨leadingExponent q - 5, by ring⟩
  rw [significant_eq_ite, hk, add_sub_cancel_right]
  rw [hk] at hle hlt
  have hlower := le_units_iff.mpr hle
  have hupper := units_lt_iff.mpr hlt
  have hnlower := le_nearestEven (n := 100000) (by exact_mod_cast hlower)
  have hnupper := nearestEven_le (n := 1000000) (by exact_mod_cast hupper.le)
  split
  next hcarry =>
    have hnear := (abs_le.mp (abs_nearestEven_sub_le (q * 10 ^ (-k)))).2
    have hunits := units_sub_one q (k + 1)
    rw [add_sub_cancel_right] at hunits
    rw [hcarry] at hnear
    push_cast at hnear
    refine ⟨le_rfl, by norm_num, nearestEven_eq ?_, by linarith⟩
    push_cast
    rw [abs_lt]
    constructor <;> linarith
  next hno =>
    obtain ⟨n, hn⟩ := Int.eq_ofNat_of_zero_le
      (show 0 ≤ nearestEven (q * 10 ^ (-k)) from le_trans (by norm_num) hnlower)
    have hfewer : (1999999 / 20 : Rat) ≤ q * 10 ^ (-k) := by linarith
    simp only [hn, Int.toNat_natCast, true_and]
    exact ⟨by omega, by omega, hfewer⟩

/-- The tie between six nines and the next power of ten goes to that power. -/
theorem nearestEven_tie : nearestEven (1999999 / 2) = 1000000 := by decide +kernel

/-- The rationals that are rounded to six digits with the same exponent. -/
theorem significant_exponent_bounds {q : Rat} (hq : 0 < q) :
    1999999 / 2 * 10 ^ ((significant q).exponent - 1) ≤ q ∧
      q < 1999999 / 2 * 10 ^ (significant q).exponent := by
  obtain ⟨-, hupper, hnear, hfewer⟩ := significant_spec hq
  have hunits : q * 10 ^ (-(significant q).exponent) < 1999999 / 2 := by
    by_contra hmany
    rcases lt_or_eq_of_le (not_lt.mp hmany) with hmore | htie
    · have herror := (abs_le.mp (abs_nearestEven_sub_le (q * 10 ^ (-(significant q).exponent)))).1
      have hdigits : ((significant q).digits : Rat) + 1 ≤ 1000000 := by exact_mod_cast hupper
      rw [hnear] at herror
      push_cast at herror
      linarith
    · rw [← htie, nearestEven_tie] at hnear
      omega
  rw [zpow_neg, ← div_eq_mul_inv] at hfewer hunits
  rw [le_div_iff₀ (by positivity)] at hfewer
  rw [div_lt_iff₀ (by positivity)] at hunits
  refine ⟨?_, hunits⟩
  rw [zpow_sub_one₀ (by norm_num)]
  linarith

/-- A rational between two powers of ten is rounded to a decimal with an exponent between them, up to
the six digits. -/
theorem exponent_bounds {q : Rat} (hq : 0 < q) {i j : Int} (hlower : (10 : Rat) ^ i ≤ q)
    (hupper : q < (10 : Rat) ^ j) :
    i - 6 < (significant q).exponent ∧ (significant q).exponent ≤ j := by
  obtain ⟨hle, hlt⟩ := significant_exponent_bounds hq
  have habove : (10 : Rat) ^ ((significant q).exponent - 1) < 10 ^ j :=
    calc
      (10 : Rat) ^ ((significant q).exponent - 1) ≤
          1999999 / 2 * 10 ^ ((significant q).exponent - 1) :=
        le_mul_of_one_le_left (by positivity) (by norm_num)
      _ < 10 ^ j := hle.trans_lt hupper
  have hbelow : (10 : Rat) ^ i < 10 ^ ((significant q).exponent + 6) :=
    calc
      (10 : Rat) ^ i < 1999999 / 2 * 10 ^ (significant q).exponent := hlower.trans_lt hlt
      _ ≤ 10 ^ (6 : Int) * 10 ^ (significant q).exponent := by
        gcongr
        norm_num
      _ = 10 ^ ((significant q).exponent + 6) := by
        rw [add_comm, zpow_add₀ (by norm_num)]
  have hlast := (zpow_lt_zpow_iff_right₀ (by norm_num)).mp habove
  have hfirst := (zpow_lt_zpow_iff_right₀ (by norm_num)).mp hbelow
  omega

theorem le_exponent_iff {q : Rat} (hq : 0 < q) (k : Int) :
    k ≤ (significant q).exponent ↔ 1999999 / 2 * 10 ^ (k - 1) ≤ q := by
  obtain ⟨hle, hlt⟩ := significant_exponent_bounds hq
  constructor
  · intro hk
    refine le_trans ?_ hle
    gcongr
    norm_num
  · intro hk
    by_contra hless
    have hpower : (10 : Rat) ^ (significant q).exponent ≤ 10 ^ (k - 1) :=
      zpow_le_zpow_right₀ (by norm_num) (by omega)
    linarith

/-- What is less than a twentieth of a unit away from six digits has these digits. Below a power of
ten the digits are found in a tenth of the unit, and a carry brings them back. -/
theorem significant_eq {q : Rat} {n : Nat} {k : Int} (hlower : 100000 ≤ n) (hupper : n < 1000000)
    (h : |q * 10 ^ (-k) - n| < 1 / 20) : significant q = ⟨n, k⟩ := by
  obtain ⟨hbelow, habove⟩ := abs_lt.mp h
  have hle : (100000 : Rat) ≤ n := by exact_mod_cast hlower
  have hlt : (n : Rat) + 1 ≤ 1000000 := by exact_mod_cast hupper
  by_cases hunits : 100000 ≤ q * (10 : Rat) ^ (-k)
  · have hexponent := leadingExponent_eq (le_units_iff.mp hunits)
      (units_lt_iff.mp (by linarith))
    have hnear : nearestEven (q * 10 ^ (-k)) = n := by
      apply nearestEven_eq
      push_cast
      linarith
    rw [significant_eq_ite, hexponent, add_sub_cancel_right, hnear, if_neg (by omega),
      Int.toNat_natCast]
  · have hn : n = 100000 := by
      have hlt : (n : Rat) < 100001 := by linarith
      have : n < 100001 := by exact_mod_cast hlt
      omega
    subst hn
    push_cast at hbelow
    have htenth := units_sub_one q k
    have hexponent := leadingExponent_eq (q := q) (e := k - 1 + 5)
      (le_units_iff.mp (by linarith)) (units_lt_iff.mp (by linarith))
    have hnear : nearestEven (q * 10 ^ (-(k - 1))) = 1000000 := by
      apply nearestEven_eq
      push_cast
      rw [abs_lt]
      constructor <;> linarith
    rw [significant_eq_ite, hexponent, add_sub_cancel_right, hnear, if_pos rfl, sub_add_cancel]

end FourFunction.Decimal
