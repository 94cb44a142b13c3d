import FourFunction.Proofs.Numeric.Error

/-! The rationals that are rounded to infinity. They are those from halfway above the greatest finite
double on, the halfway point itself among them, since the pattern of that double is odd. -/

namespace FourFunction.Numeric

/-- The magnitude halfway between the greatest finite double and the power of two above it. -/
def overflowBound : Rat := 2 ^ 1024 - 2 ^ 970

theorem overflowBound_eq : overflowBound = (2 * binadeSize - 1 / 2) * 2 ^ (971 : Int) := by
  have hbinade : (binadeSize : Rat) = 2 ^ 52 := by norm_num [binadeSize]
  have hlarge : (2 : Rat) ^ 1024 = 2 ^ 53 * 2 ^ 971 := by rw [← pow_add]
  have hspacing : (2 : Rat) ^ 971 = 2 * 2 ^ 970 := by rw [← pow_succ']
  rw [overflowBound, hbinade, zpow_ofNat, hlarge, hspacing]
  generalize (2 : Rat) ^ 970 = half
  ring

section Spacing

variable {q : Rat} (hq : 0 < q)

include hq

/-- With a smaller spacing than that of the greatest binade the nearest double is finite. -/
theorem overflow_of_spacing_lt (hk : spacingExponent q < 971) :
    nearestPattern q < infinityPattern ∧ q < overflowBound := by
  obtain ⟨m, -, hle, -, hpattern⟩ := exists_nearest_units hq
  obtain ⟨hupper, -⟩ := spacing_units_bounds hq
  constructor
  · have hspacing : (spacingExponent q + 1074).toNat ≤ 2044 := by omega
    rw [hpattern, infinityPattern]
    refine (min_le_left _ _).trans_lt ?_
    nlinarith [binadeSize_pos]
  · rw [overflowBound_eq]
    calc
      q = q * 2 ^ (-spacingExponent q) * 2 ^ spacingExponent q := by
        rw [zpow_neg_mul_zpow]
      _ ≤ 2 * binadeSize * 2 ^ (970 : Int) := by
        gcongr
        · norm_num
        · omega
      _ < (2 * binadeSize - 1 / 2) * 2 ^ (971 : Int) := by
        rw [show (971 : Int) = 970 + 1 by norm_num, zpow_add_one₀ (by norm_num)]
        have hunit : (0 : Rat) < 2 ^ (970 : Int) := by positivity
        have hbinade := one_le_cast_binadeSize
        generalize (2 : Rat) ^ (970 : Int) = half at *
        nlinarith

/-- The spacing of the next power of two and above is greater than that of any finite double. -/
theorem overflow_of_lt_spacing (hk : 971 < spacingExponent q) :
    nearestPattern q = infinityPattern ∧ overflowBound ≤ q := by
  obtain ⟨m, -, -, hnormal, hpattern⟩ := exists_nearest_units hq
  obtain ⟨-, hlower⟩ := spacing_units_bounds hq
  constructor
  · have hspacing : 2046 ≤ (spacingExponent q + 1074).toNat := by omega
    have hunits : binadeSize ≤ m := hnormal.resolve_left (by omega)
    rw [hpattern, infinityPattern]
    refine min_eq_right ?_
    nlinarith [binadeSize_pos]
  · rw [overflowBound_eq]
    calc
      (2 * binadeSize - 1 / 2) * 2 ^ (971 : Int) ≤ binadeSize * (2 : Rat) ^ (972 : Int) := by
        rw [show (972 : Int) = 971 + 1 by norm_num, zpow_add_one₀ (by norm_num)]
        have hunit : (0 : Rat) < 2 ^ (971 : Int) := by positivity
        generalize (2 : Rat) ^ (971 : Int) = unit at *
        nlinarith
      _ ≤ q * 2 ^ (-spacingExponent q) * 2 ^ spacingExponent q := by
        gcongr
        · exact hlower.resolve_left (by omega)
        · norm_num
        · omega
      _ = q := zpow_neg_mul_zpow q _

/-- In the greatest binade the bound is rounded to the even number of units, which is no double. -/
theorem overflow_of_spacing_eq (hk : spacingExponent q = 971) :
    nearestPattern q = infinityPattern ↔ overflowBound ≤ q := by
  obtain ⟨m, hm, hle, -, hpattern⟩ := exists_nearest_units hq
  obtain ⟨hupper, -⟩ := spacing_units_bounds hq
  rw [hk] at hm hpattern hupper
  have hmost : nearestPattern q = infinityPattern ↔ (m : Int) = (2 * binadeSize : Nat) := by
    have hspacing : ((971 : Int) + 1074).toNat = 2045 := rfl
    rw [hpattern, infinityPattern, hspacing]
    omega
  have heven : ((2 * binadeSize : Nat) : Int) % 2 = 0 := by omega
  -- Twice the binade is even, so the units halfway below it are rounded up to it.
  have hround := nearestEven_eq_iff_of_le heven (by push_cast; exact hupper)
  have hcast : (((2 * binadeSize : Nat) : Int) : Rat) = 2 * binadeSize := by push_cast; rfl
  rw [hmost, ← hm, hround, overflowBound_eq, zpow_neg, ← div_eq_mul_inv,
    le_div_iff₀ (by positivity), hcast]

end Spacing

/-- The nearest double is infinite from the bound on. -/
theorem nearestPattern_eq_infinityPattern_iff {q : Rat} :
    nearestPattern q = infinityPattern ↔ overflowBound ≤ q := by
  rcases le_or_gt q 0 with hq | hq
  · have hzero : nearestPattern q = 0 := if_pos (Rat.num_nonpos.mpr hq)
    have hbound : (0 : Rat) < overflowBound := by
      rw [overflowBound_eq]
      have hbinade := one_le_cast_binadeSize
      have : (0 : Rat) < 2 * binadeSize - 1 / 2 := by linarith
      positivity
    rw [hzero]
    exact iff_of_false (by decide) (not_le.mpr (hq.trans_lt hbound))
  · rcases lt_trichotomy (spacingExponent q) 971 with hlt | heq | hgt
    · obtain ⟨hpattern, hbound⟩ := overflow_of_spacing_lt hq hlt
      exact iff_of_false hpattern.ne (not_le.mpr hbound)
    · exact overflow_of_spacing_eq hq heq
    · obtain ⟨hpattern, hbound⟩ := overflow_of_lt_spacing hq hgt
      exact iff_of_true hpattern hbound

end FourFunction.Numeric
