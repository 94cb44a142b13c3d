import FourFunction.Numeric.Binary64
import Mathlib.Algebra.Order.Field.Power
import Mathlib.Data.Nat.Prime.Basic
import Mathlib.Data.Rat.Floor

/-! Magnitudes as whole numbers of the spacing around them. Such a number is not rounded, so the
double nearest to what a double denotes is that double. -/

namespace FourFunction.Numeric

/-! ## Powers of two -/

theorem power_eq_zpow (base : Nat) (k : Int) : power base k = (base : Rat) ^ k := by
  cases k with
  | ofNat k => simp [power, Rat.mkRat_eq_div]
  | negSucc k => simp [power, Rat.mkRat_eq_div, zpow_negSucc]

theorem two_zpow_mul (i j : Int) : (2 : Rat) ^ i * 2 ^ j = 2 ^ (i + j) :=
  (zpow_add₀ (by norm_num) i j).symm

theorem units_mul_zpow (m : Rat) (k : Int) : m * (2 : Rat) ^ k * 2 ^ (-k) = m := by
  rw [mul_assoc, two_zpow_mul, add_neg_cancel, zpow_zero, mul_one]

theorem zpow_neg_mul_zpow (q : Rat) (k : Int) : q * (2 : Rat) ^ (-k) * 2 ^ k = q := by
  rw [mul_assoc, two_zpow_mul, neg_add_cancel, zpow_zero, mul_one]

theorem two_zpow_log2_le {n : Nat} (hn : n ≠ 0) : (2 : Rat) ^ (n.log2 : Int) ≤ n := by
  rw [zpow_natCast]
  exact_mod_cast Nat.log2_self_le hn

theorem lt_two_zpow_log2 (n : Nat) : (n : Rat) < (2 : Rat) ^ ((n.log2 : Int) + 1) := by
  rw [← Nat.cast_succ, zpow_natCast]
  exact_mod_cast Nat.lt_log2_self

theorem num_toNat_pos {q : Rat} (hq : 0 < q) : 0 < q.num.toNat := by
  have := Rat.num_pos.mpr hq
  omega

theorem num_toNat_div_den {q : Rat} (hq : 0 ≤ q) : (q.num.toNat : Rat) / q.den = q := by
  have hnum : ((q.num.toNat : Nat) : Int) = q.num := Int.toNat_of_nonneg (Rat.num_nonneg.mpr hq)
  conv_rhs => rw [← Rat.num_div_den q, ← hnum]
  rfl

/-- The lengths of the numerator and the denominator locate a rational up to one power of two. -/
theorem estimate_bounds {q : Rat} (hq : 0 < q) :
    (2 : Rat) ^ ((q.num.toNat.log2 : Int) - (q.den.log2 : Int) - 1) ≤ q ∧
      q < (2 : Rat) ^ ((q.num.toNat.log2 : Int) - (q.den.log2 : Int) + 1) := by
  have hne : q.num.toNat ≠ 0 := (num_toNat_pos hq).ne'
  have hden : (0 : Rat) < q.den := by exact_mod_cast q.den_pos
  have hdiv := (num_toNat_div_den hq.le).symm
  have hnl := two_zpow_log2_le hne
  have hnu := lt_two_zpow_log2 q.num.toNat
  have hdl := two_zpow_log2_le q.den_nz
  have hdu := lt_two_zpow_log2 q.den
  generalize (q.num.toNat.log2 : Int) = a at *
  generalize (q.den.log2 : Int) = b at *
  constructor
  · rw [hdiv, le_div_iff₀ hden]
    calc
      (2 : Rat) ^ (a - b - 1) * q.den ≤ 2 ^ (a - b - 1) * 2 ^ (b + 1) := by gcongr
      _ = 2 ^ a := by rw [two_zpow_mul]; congr 1; ring
      _ ≤ q.num.toNat := hnl
  · rw [hdiv, div_lt_iff₀ hden]
    calc
      (q.num.toNat : Rat) < 2 ^ (a + 1) := hnu
      _ = 2 ^ (a - b + 1) * 2 ^ b := by rw [two_zpow_mul]; congr 1; ring
      _ ≤ 2 ^ (a - b + 1) * q.den := by gcongr

/-- The binary exponent is that of the power of two at or below a rational. -/
theorem binaryExponent_bounds {q : Rat} (hq : 0 < q) :
    (2 : Rat) ^ binaryExponent q ≤ q ∧ q < (2 : Rat) ^ (binaryExponent q + 1) := by
  obtain ⟨hle, hlt⟩ := estimate_bounds hq
  rw [binaryExponent]
  simp only [power_eq_zpow, Nat.cast_ofNat]
  split
  next h => exact ⟨hle, by rwa [Int.sub_add_cancel]⟩
  next h => exact ⟨not_lt.mp h, hlt⟩

theorem nearestEven_intCast (n : Int) : nearestEven n = n := by
  rw [nearestEven, Rat.floor_intCast, if_pos]
  simp [Rat.mkRat_eq_div]

/-! ## Patterns -/

theorem binadeSize_pos : 0 < binadeSize := by
  decide

theorem cast_binadeSize : (binadeSize : Rat) = 2 ^ (52 : Int) := by
  norm_num [binadeSize]

theorem one_le_cast_binadeSize : (1 : Rat) ≤ binadeSize := by
  exact_mod_cast binadeSize_pos

/-- `m` units of `2 ^ k` are a magnitude with the spacing of the doubles around it for its unit: it is
no longer than the doubles are precise, and shorter only if the spacing is the least one. -/
structure OnGrid (m : Nat) (k : Int) : Prop where
  least : -1074 ≤ k
  lt : m < 2 * binadeSize
  normal : k = -1074 ∨ binadeSize ≤ m

theorem exists_onGrid (p : Nat) :
    ∃ m k, OnGrid m k ∧ magnitudeOfPattern p = m * (2 : Rat) ^ k ∧
      p = (k + 1074).toNat * binadeSize + m := by
  have hpos := binadeSize_pos
  by_cases hp : p < binadeSize
  · refine ⟨p, -1074, ⟨le_rfl, by omega, .inl rfl⟩, ?_, by simp⟩
    rw [magnitudeOfPattern, if_pos hp, power_eq_zpow, Rat.mkRat_one]
    rfl
  · have hquot : 1 ≤ p / binadeSize := (Nat.one_le_div_iff hpos).mpr (not_lt.mp hp)
    have hmod : p % binadeSize < binadeSize := Nat.mod_lt p hpos
    refine ⟨binadeSize + p % binadeSize, (p / binadeSize : Nat) - 1075,
      ⟨by omega, by omega, .inr (Nat.le_add_right _ _)⟩, ?_, ?_⟩
    · rw [magnitudeOfPattern, if_neg hp, power_eq_zpow, Rat.mkRat_one]
      rfl
    · obtain ⟨j, hj⟩ := Nat.exists_eq_add_of_le' hquot
      have hshift : ((p / binadeSize : Nat) - 1075 + 1074 : Int).toNat = j := by omega
      have hdivides := Nat.div_add_mod' p binadeSize
      rw [hj, Nat.add_mul] at hdivides
      rw [hshift]
      omega

theorem OnGrid.spacingExponent_eq {m : Nat} {k : Int} (h : OnGrid m k) (hm : 0 < m) :
    spacingExponent (m * (2 : Rat) ^ k) = k := by
  have hbinade := cast_binadeSize
  have hq : (0 : Rat) < m * 2 ^ k := by positivity
  obtain ⟨hle, hlt⟩ := binaryExponent_bounds hq
  have hupper : (m : Rat) * 2 ^ k < 2 ^ (52 + 1 + k) := by
    rw [← two_zpow_mul, ← two_zpow_mul, ← hbinade, zpow_one, mul_comm (binadeSize : Rat)]
    gcongr
    exact_mod_cast h.lt
  have hexponent := (zpow_lt_zpow_iff_right₀ (by norm_num)).mp (hle.trans_lt hupper)
  rw [spacingExponent]
  rcases h.normal with rfl | hnormal
  · omega
  · have hlower : (2 : Rat) ^ (52 + k) ≤ m * 2 ^ k := by
      rw [← two_zpow_mul, ← hbinade]
      gcongr
    have hexponent' := (zpow_lt_zpow_iff_right₀ (by norm_num)).mp (hlower.trans_lt hlt)
    have hleast := h.least
    omega

/-- A whole number of the spacing needs no rounding. -/
theorem OnGrid.nearestPattern_eq {m : Nat} {k : Int} (h : OnGrid m k) :
    nearestPattern (m * (2 : Rat) ^ k) =
      min ((k + 1074).toNat * binadeSize + m) infinityPattern := by
  rcases Nat.eq_zero_or_pos m with rfl | hm
  · have hpos := binadeSize_pos
    obtain rfl : k = -1074 := h.normal.resolve_right (by omega)
    simp [nearestPattern]
  · have hq : (0 : Rat) < m * 2 ^ k := by positivity
    have hexact : (m : Rat) * 2 ^ k * 2 ^ (-k) = (m : Int) := units_mul_zpow m k
    rw [nearestPattern, if_neg (not_le.mpr (Rat.num_pos.mpr hq))]
    simp only [h.spacingExponent_eq hm, power_eq_zpow, Nat.cast_ofNat]
    rw [hexact, nearestEven_intCast, Int.toNat_natCast]

/-- Every double is the nearest one to what it denotes. -/
theorem nearestPattern_magnitudeOfPattern {p : Nat} (hp : p ≤ infinityPattern) :
    nearestPattern (magnitudeOfPattern p) = p := by
  obtain ⟨m, k, hgrid, hq, hpattern⟩ := exists_onGrid p
  rw [hq, hgrid.nearestPattern_eq, ← hpattern, min_eq_left hp]

theorem magnitudeOfPattern_nonneg (p : Nat) : 0 ≤ magnitudeOfPattern p := by
  obtain ⟨m, k, -, hq, -⟩ := exists_onGrid p
  rw [hq]
  positivity

theorem den_mul_zpow (m : Nat) (k : Int) : ∃ j, ((m : Rat) * 2 ^ k).den = 2 ^ j := by
  cases k with
  | ofNat i =>
      refine ⟨0, ?_⟩
      have hnat : (m : Rat) * 2 ^ Int.ofNat i = ((m * 2 ^ i : Nat) : Rat) := by simp
      rw [hnat]
      rfl
  | negSucc i =>
      have hdiv : (m : Rat) * 2 ^ Int.negSucc i = Rat.divInt m (2 ^ (i + 1) : Nat) := by
        rw [zpow_negSucc, Rat.divInt_eq_div, div_eq_mul_inv]
        simp
      have hdvd : ((m : Rat) * 2 ^ Int.negSucc i).den ∣ 2 ^ (i + 1) := by
        rw [hdiv]
        exact_mod_cast Rat.den_dvd m (2 ^ (i + 1) : Nat)
      obtain ⟨j, -, hj⟩ := (Nat.dvd_prime_pow Nat.prime_two).mp hdvd
      exact ⟨j, hj⟩

/-- What a double denotes is a whole number of halvings of one. -/
theorem den_magnitudeOfPattern (p : Nat) : ∃ j, (magnitudeOfPattern p).den = 2 ^ j := by
  obtain ⟨m, k, -, hq, -⟩ := exists_onGrid p
  rw [hq]
  exact den_mul_zpow m k

end FourFunction.Numeric
