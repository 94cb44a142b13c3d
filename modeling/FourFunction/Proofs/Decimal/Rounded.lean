import FourFunction.Proofs.Decimal.Significant

/-! What rounding to six significant digits means: a decimal with six digits is found such that none
is nearer. There is one such decimal only, since ties go to an even last digit. -/

namespace FourFunction.Decimal

open Numeric

/-- The digits are six, the first of them not a zero. -/
def HasSixDigits (d : Decimal) : Prop :=
  100000 ≤ d.digits ∧ d.digits ≤ 999999

/-- A decimal of six digits to which a rational is rounded: none is nearer, and of two that are
equally near it is the one with an even last digit. -/
structure IsRounded (q : Rat) (d : Decimal) : Prop where
  six : d.HasSixDigits
  nearest : ∀ d' : Decimal, d'.HasSixDigits → |q - d.value| ≤ |q - d'.value|
  even : ∀ d' : Decimal, d'.HasSixDigits → d' ≠ d → |q - d.value| = |q - d'.value| →
    d.digits % 2 = 0

/-- A decimal in units of the place `10 ^ k`. -/
def unitsOf (d : Decimal) (k : Int) : Rat :=
  d.digits * 10 ^ (d.exponent - k)

theorem abs_sub_value (q : Rat) (d : Decimal) (k : Int) :
    |q - d.value| = |d.unitsOf k - q * 10 ^ (-k)| * 10 ^ k := by
  have hexact : d.value - q = (d.unitsOf k - q * 10 ^ (-k)) * 10 ^ k := by
    rw [sub_mul, mul_assoc, ← zpow_add₀ (by norm_num), neg_add_cancel, zpow_zero, mul_one, unitsOf,
      mul_assoc, ← zpow_add₀ (by norm_num), sub_add_cancel, value_eq]
  rw [abs_sub_comm, hexact, abs_mul, abs_of_pos (a := (10 : Rat) ^ k) (by positivity)]

/-- Distances may be compared in units of any place. -/
theorem abs_sub_value_le_iff {q : Rat} {d d' : Decimal} (k : Int) :
    |q - d.value| ≤ |q - d'.value| ↔
      |d.unitsOf k - q * 10 ^ (-k)| ≤ |d'.unitsOf k - q * 10 ^ (-k)| := by
  rw [abs_sub_value q d k, abs_sub_value q d' k, mul_le_mul_iff_left₀ (by positivity)]

/-- At or above the place, a decimal is a whole number of units. Above it they are more than six
digits can count. -/
theorem HasSixDigits.exists_unitsOf {d : Decimal} (hd : d.HasSixDigits) {k : Int}
    (hk : k ≤ d.exponent) : ∃ n : Nat, d.unitsOf k = n ∧
      (d.exponent = k ∧ n = d.digits ∨ 1000000 ≤ n) := by
  obtain ⟨j, hj⟩ := Int.eq_ofNat_of_zero_le (sub_nonneg.mpr hk)
  refine ⟨d.digits * 10 ^ j, ?_, ?_⟩
  · rw [unitsOf, hj, zpow_natCast]
    push_cast
    rfl
  · cases j with
    | zero => exact .inl ⟨by omega, by omega⟩
    | succ j =>
        right
        have hpow : 1 ≤ 10 ^ j := Nat.one_le_pow _ _ (by decide)
        have hsix := hd.1
        rw [pow_succ]
        nlinarith

/-- Below the place, a unit of the last digit counts a tenth of a unit at most. -/
theorem unitsOf_le {d : Decimal} {k : Int} (hk : d.exponent < k) :
    d.unitsOf k ≤ d.digits / 10 := by
  have hpow : (10 : Rat) ^ (d.exponent - k) ≤ 10 ^ (-1 : Int) :=
    zpow_le_zpow_right₀ (by norm_num) (by omega)
  have hdigits : (0 : Rat) ≤ d.digits := Nat.cast_nonneg _
  rw [unitsOf]
  norm_num at hpow
  nlinarith

theorem unitsOf_exponent (d : Decimal) : d.unitsOf d.exponent = d.digits := by
  rw [unitsOf, sub_self, zpow_zero, mul_one]

/-- Another decimal is not nearer, and if it is as near it is odd and the digits found are even. -/
def Outdone (q : Rat) (d : Decimal) : Prop :=
  |q - (significant q).value| ≤ |q - d.value| ∧
    (|q - d.value| ≤ |q - (significant q).value| →
      (significant q).digits % 2 = 0 ∧ d.digits % 2 = 1)

section Significant

variable {q : Rat} (hq : 0 < q)

include hq

/-- Either the rational is at least the least decimal of the place, or it is rounded up to it from
no more than half a unit of the next place. -/
theorem significant_units_cases :
    100000 ≤ q * 10 ^ (-(significant q).exponent) ∨
      (significant q).digits = 100000 ∧ 1999999 / 20 ≤ q * 10 ^ (-(significant q).exponent) := by
  obtain ⟨hlower, -, hnear, hfewer⟩ := significant_spec hq
  rcases le_or_gt 100000 (q * 10 ^ (-(significant q).exponent)) with hle | hlt
  · exact .inl hle
  · right
    have hupper := nearestEven_le (n := 100000) (by exact_mod_cast hlt.le)
    exact ⟨by omega, hfewer⟩

/-- The decimals of lower places are too small to be as near, but for the greatest of them, which is
as near as the least decimal of the place if the rational lies halfway. -/
theorem outdone_of_lt {d : Decimal} (hd : d.HasSixDigits)
    (hk : d.exponent < (significant q).exponent) : Outdone q d := by
  have hunits := unitsOf_le hk
  have hdigits : (d.digits : Rat) ≤ 999999 := by exact_mod_cast hd.2
  have hleast := abs_nearestEven_sub_le_abs (q * 10 ^ (-(significant q).exponent)) 100000
  rw [(significant_spec hq).2.2.1] at hleast
  have hcases := significant_units_cases hq
  rw [Outdone, abs_sub_value_le_iff (significant q).exponent,
    abs_sub_value_le_iff (significant q).exponent, unitsOf_exponent]
  generalize q * 10 ^ (-(significant q).exponent) = u at *
  generalize d.unitsOf (significant q).exponent = v at *
  rw [abs_of_nonpos (a := v - u) (by rcases hcases with h | h <;> linarith)]
  push_cast at hleast
  rcases le_or_gt 100000 u with hmore | hless
  · rw [abs_of_nonpos (a := 100000 - u) (by linarith)] at hleast
    exact ⟨by linarith, fun htie => by linarith⟩
  · obtain ⟨hcarry, hfewer⟩ := hcases.resolve_left (not_le.mpr hless)
    have hcast : ((significant q).digits : Rat) = 100000 := by exact_mod_cast hcarry
    rw [hcast, abs_of_nonneg (a := 100000 - u) (by linarith)]
    refine ⟨by linarith, fun htie => ?_⟩
    have hgreatest : (999999 : Rat) ≤ d.digits := by linarith
    have hnat : 999999 ≤ d.digits := by exact_mod_cast hgreatest
    have hsix := hd.2
    omega

/-- The decimals of the place and of higher places are whole numbers of units. -/
theorem outdone_of_le {d : Decimal} (hd : d.HasSixDigits)
    (hk : (significant q).exponent ≤ d.exponent) (hne : d ≠ significant q) : Outdone q d := by
  obtain ⟨hlower, hupper, hnear, -⟩ := significant_spec hq
  obtain ⟨n, hn, hcases⟩ := hd.exists_unitsOf hk
  have hother : n ≠ (significant q).digits := by
    rcases hcases with ⟨hexponent, rfl⟩ | hmany
    · intro heq
      exact hne (by cases d; cases hs : significant q; simp_all)
    · omega
  rw [Outdone, abs_sub_value_le_iff (significant q).exponent,
    abs_sub_value_le_iff (significant q).exponent, unitsOf_exponent, hn]
  generalize q * 10 ^ (-(significant q).exponent) = u at *
  have hle := abs_nearestEven_sub_le_abs u n
  have hneighbour := neighbour_of_tie (q := u) (n := n)
  rw [hnear] at hle hneighbour
  push_cast at hle hneighbour
  refine ⟨hle, fun htie => ?_⟩
  have := hneighbour (by omega) htie
  omega

theorem outdone {d : Decimal} (hd : d.HasSixDigits) (hne : d ≠ significant q) : Outdone q d := by
  rcases le_or_gt (significant q).exponent d.exponent with hk | hk
  · exact outdone_of_le hq hd hk hne
  · exact outdone_of_lt hq hd hk

/-- The six digits found for a rational are those to which it is rounded. -/
theorem isRounded_significant : IsRounded q (significant q) where
  six := by
    obtain ⟨hlower, hupper, -⟩ := significant_spec hq
    exact ⟨hlower, by omega⟩
  nearest := by
    intro d hd
    rcases eq_or_ne d (significant q) with rfl | hne
    · exact le_rfl
    · exact (outdone hq hd hne).1
  even := fun d hd hne htie => ((outdone hq hd hne).2 htie.ge).1

/-- A rational is rounded to one decimal only. -/
theorem IsRounded.eq_significant {d : Decimal} (h : IsRounded q d) : d = significant q := by
  by_contra hne
  obtain ⟨hle, hodd⟩ := outdone hq h.six hne
  have hsix := (isRounded_significant hq).six
  have hge := h.nearest _ hsix
  have heven := h.even _ hsix (Ne.symm hne) (le_antisymm hge hle)
  have := (hodd hge).2
  omega

end Significant

end FourFunction.Decimal
