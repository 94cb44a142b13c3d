import FourFunction.Proofs.Numeric.Nearest
import Mathlib.Tactic.Linarith

/-! The error of rounding. The nearest integer is at most a half away, and the nearest double at
most half the spacing of the doubles, which is a fixed part of a rational that is not too small. -/

namespace FourFunction.Numeric

/-! ## Integers -/

theorem abs_nearestEven_sub_le (q : Rat) : |(nearestEven q : Rat) - q| ≤ 1 / 2 := by
  have hle := Rat.floor_le q
  have hlt := Rat.lt_floor (x := q)
  have hhalf : mkRat 1 2 = (1 / 2 : Rat) := by norm_num [Rat.mkRat_eq_div]
  rw [abs_le, nearestEven]
  simp only [hhalf]
  split
  · constructor <;> linarith
  · split
    · push_cast
      constructor <;> linarith
    · split
      · constructor <;> linarith
      · push_cast
        constructor <;> linarith

/-- An integer that is less than a half away is the nearest one. -/
theorem nearestEven_eq {q : Rat} {n : Int} (h : |q - n| < 1 / 2) : nearestEven q = n := by
  have herror := abs_nearestEven_sub_le q
  have hdistance : |((nearestEven q - n : Int) : Rat)| < 1 := by
    push_cast
    calc
      |(nearestEven q : Rat) - n| ≤ |(nearestEven q : Rat) - q| + |q - n| := abs_sub_le _ _ _
      _ < 1 := by linarith
  have hint : |nearestEven q - n| < 1 := by exact_mod_cast hdistance
  rw [Int.abs_lt_one_iff] at hint
  omega

/-- Rounding does not pass an integer. -/
theorem le_nearestEven {q : Rat} {n : Int} (h : (n : Rat) ≤ q) : n ≤ nearestEven q := by
  have herror := (abs_le.mp (abs_nearestEven_sub_le q)).1
  have hlt : (n : Rat) < (nearestEven q + 1 : Int) := by
    push_cast
    linarith
  exact Int.lt_add_one_iff.mp (by exact_mod_cast hlt)

theorem nearestEven_le {q : Rat} {n : Int} (h : q ≤ n) : nearestEven q ≤ n := by
  have herror := (abs_le.mp (abs_nearestEven_sub_le q)).2
  have hlt : (nearestEven q : Rat) < (n + 1 : Int) := by
    push_cast
    linarith
  exact Int.lt_add_one_iff.mp (by exact_mod_cast hlt)

theorem abs_sub_one_le_abs_sub {a b : Int} (h : a ≠ b) : (1 : Rat) ≤ |(a : Rat) - b| := by
  have hint : 1 ≤ |a - b| := Int.one_le_abs (sub_ne_zero.mpr h)
  exact_mod_cast hint

/-- No integer is nearer. -/
theorem abs_nearestEven_sub_le_abs (q : Rat) (n : Int) :
    |(nearestEven q : Rat) - q| ≤ |(n : Rat) - q| := by
  rcases eq_or_ne n (nearestEven q) with rfl | hne
  · exact le_rfl
  · have hapart := abs_sub_one_le_abs_sub hne
    have herror := abs_nearestEven_sub_le q
    have htriangle := abs_sub_le (n : Rat) q (nearestEven q)
    rw [abs_sub_comm q] at htriangle
    linarith

/-- Of two integers that are equally near the even one is taken. -/
theorem nearestEven_even_of_tie {q : Rat} {n : Int} (hne : n ≠ nearestEven q)
    (h : |(nearestEven q : Rat) - q| = |(n : Rat) - q|) : nearestEven q % 2 = 0 := by
  have hapart := abs_sub_one_le_abs_sub hne
  have htriangle := abs_sub_le (n : Rat) q (nearestEven q)
  rw [abs_sub_comm q] at htriangle
  have hhalf : (1 / 2 : Rat) ≤ |(nearestEven q : Rat) - q| := by linarith
  have hle := Rat.floor_le q
  have hlt := Rat.lt_floor (x := q)
  have hmk : mkRat 1 2 = (1 / 2 : Rat) := by norm_num [Rat.mkRat_eq_div]
  rw [nearestEven] at hhalf ⊢
  simp only [hmk] at hhalf ⊢
  split
  next hbelow =>
    rw [if_pos hbelow, abs_of_nonpos (by linarith)] at hhalf
    linarith
  next hbelow =>
    rw [if_neg hbelow] at hhalf
    split
    next habove =>
      rw [if_pos habove, abs_of_nonneg (by push_cast; linarith)] at hhalf
      push_cast at hhalf
      linarith
    next => split <;> omega

/-- Another integer that is as near as the nearest one is next to it, and the nearest one is even. -/
theorem neighbour_of_tie {q : Rat} {n : Int} (hne : n ≠ nearestEven q)
    (h : |(n : Rat) - q| ≤ |(nearestEven q : Rat) - q|) :
    nearestEven q % 2 = 0 ∧ (n = nearestEven q - 1 ∨ n = nearestEven q + 1) := by
  have heven := nearestEven_even_of_tie hne (le_antisymm (abs_nearestEven_sub_le_abs q n) h)
  have herror := abs_nearestEven_sub_le q
  have htriangle := abs_sub_le (n : Rat) q (nearestEven q)
  rw [abs_sub_comm q] at htriangle
  have hapart : |((n - nearestEven q : Int) : Rat)| ≤ 1 := by
    push_cast
    linarith
  have hint : |n - nearestEven q| ≤ 1 := by exact_mod_cast hapart
  rw [abs_le] at hint
  omega

/-- A half below an even integer is rounded to it, and nothing less is. -/
theorem nearestEven_eq_iff_of_le {u : Rat} {n : Int} (hn : n % 2 = 0) (hu : u ≤ n) :
    nearestEven u = n ↔ (n : Rat) - 1 / 2 ≤ u := by
  have herror := abs_nearestEven_sub_le u
  constructor
  · intro h
    rw [h] at herror
    linarith [(abs_le.mp herror).2]
  · intro h
    by_contra hne
    have hle := nearestEven_le hu
    have htie : |(n : Rat) - u| ≤ |(nearestEven u : Rat) - u| := by
      have hbelow : (nearestEven u : Rat) ≤ (n - 1 : Int) := by exact_mod_cast (by omega)
      push_cast at hbelow
      rw [abs_of_nonneg (by linarith), abs_of_nonpos (by linarith)]
      linarith
    have := neighbour_of_tie (Ne.symm hne) htie
    omega

/-! ## Doubles -/

/-- Units of the spacing make up a magnitude also if they are so many that they reach the next
binade. -/
theorem magnitudeOfPattern_units {m : Nat} {k : Int} (hk : -1074 ≤ k) (hm : m ≤ 2 * binadeSize)
    (hnormal : k = -1074 ∨ binadeSize ≤ m) :
    magnitudeOfPattern ((k + 1074).toNat * binadeSize + m) = m * (2 : Rat) ^ k := by
  have hpos := binadeSize_pos
  obtain ⟨j, hj⟩ := Int.eq_ofNat_of_zero_le (show 0 ≤ k + 1074 by omega)
  obtain rfl : k = j - 1074 := by omega
  rw [hj, Int.toNat_natCast]
  rcases Nat.lt_or_ge m binadeSize with hsmall | hlarge
  · obtain rfl : j = 0 := by omega
    rw [Nat.zero_mul, Nat.zero_add, magnitudeOfPattern, if_pos hsmall, power_eq_zpow, Rat.mkRat_one]
    rfl
  · obtain ⟨r, rfl⟩ := Nat.exists_eq_add_of_le hlarge
    have hpattern : j * binadeSize + (binadeSize + r) = r + (j + 1) * binadeSize := by ring
    rw [magnitudeOfPattern, if_neg (by rw [hpattern]; nlinarith), hpattern,
      Nat.add_mul_div_right _ _ hpos, Nat.add_mul_mod_self_right, power_eq_zpow, Rat.mkRat_one]
    rcases Nat.lt_or_eq_of_le (show r ≤ binadeSize by omega) with hr | rfl
    · rw [Nat.div_eq_of_lt hr, Nat.mod_eq_of_lt hr, Nat.zero_add]
      push_cast
      congr 2
      ring
    · rw [Nat.div_self hpos, Nat.mod_self, Nat.add_zero]
      have hexponent : (((1 + (j + 1) : Nat) : Int) - 1075) = (j - 1074 : Int) + 1 := by
        push_cast
        ring
      rw [hexponent, zpow_add_one₀ (by norm_num)]
      push_cast
      ring

/-- The number of spacings that make up a rational. -/
theorem spacing_units_bounds {q : Rat} (hq : 0 < q) :
    q * 2 ^ (-spacingExponent q) ≤ 2 * binadeSize ∧
      (spacingExponent q = -1074 ∨ (binadeSize : Rat) ≤ q * 2 ^ (-spacingExponent q)) := by
  have hbinade := cast_binadeSize
  obtain ⟨hle, hlt⟩ := binaryExponent_bounds hq
  constructor
  · have hexponent : binaryExponent q + 1 ≤ 53 + spacingExponent q := by
      rw [spacingExponent]
      omega
    have hbound : q ≤ 2 ^ (53 : Int) * 2 ^ spacingExponent q := by
      rw [two_zpow_mul]
      exact hlt.le.trans (zpow_le_zpow_right₀ (by norm_num) hexponent)
    rw [zpow_neg, ← div_eq_mul_inv, div_le_iff₀ (by positivity), hbinade]
    calc
      q ≤ 2 ^ (53 : Int) * 2 ^ spacingExponent q := hbound
      _ = 2 * 2 ^ (52 : Int) * 2 ^ spacingExponent q := by norm_num
  · rcases Int.le_total (binaryExponent q - 52) (-1074) with hleast | hnormal
    · exact .inl (max_eq_right hleast)
    · right
      rw [spacingExponent, max_eq_left hnormal, zpow_neg, ← div_eq_mul_inv,
        le_div_iff₀ (by positivity), hbinade, two_zpow_mul]
      rwa [show (52 + (binaryExponent q - 52) : Int) = binaryExponent q by ring]

/-- The nearest double is a whole number of the spacing around the rational. -/
theorem exists_nearest_units {q : Rat} (hq : 0 < q) :
    ∃ m : Nat, nearestEven (q * 2 ^ (-spacingExponent q)) = m ∧ m ≤ 2 * binadeSize ∧
      (spacingExponent q = -1074 ∨ binadeSize ≤ m) ∧
      nearestPattern q =
        min ((spacingExponent q + 1074).toNat * binadeSize + m) infinityPattern := by
  obtain ⟨hupper, hlower⟩ := spacing_units_bounds hq
  have hnonneg : 0 ≤ nearestEven (q * 2 ^ (-spacingExponent q)) :=
    le_nearestEven (by push_cast; positivity)
  obtain ⟨m, hm⟩ := Int.eq_ofNat_of_zero_le hnonneg
  refine ⟨m, hm, ?_, ?_, ?_⟩
  · have hint := nearestEven_le (n := (2 * binadeSize : Nat)) (by exact_mod_cast hupper)
    omega
  · apply hlower.imp_right
    intro h
    have hint := le_nearestEven (n := binadeSize) (by exact_mod_cast h)
    omega
  · rw [nearestPattern, if_neg (not_le.mpr (Rat.num_pos.mpr hq))]
    simp only [power_eq_zpow, Nat.cast_ofNat]
    rw [hm, Int.toNat_natCast]

/-- Distances are compared in units of any power of two. -/
theorem abs_sub_eq_units (r q : Rat) (k : Int) :
    |r - q| = |r * 2 ^ (-k) - q * 2 ^ (-k)| * 2 ^ k := by
  rw [← sub_mul, abs_mul, abs_of_pos (a := (2 : Rat) ^ (-k)) (by positivity),
    zpow_neg_mul_zpow]

theorem abs_sub_le_iff_units {r s q : Rat} (k : Int) : |r - q| ≤ |s - q| ↔
    |r * 2 ^ (-k) - q * 2 ^ (-k)| ≤ |s * 2 ^ (-k) - q * 2 ^ (-k)| := by
  rw [abs_sub_eq_units r q k, abs_sub_eq_units s q k, mul_le_mul_iff_left₀ (by positivity)]

/-- A rational in the range of the doubles has a nearest double, at most half a spacing away. -/
theorem magnitudeOfPattern_nearestPattern {q : Rat} (hq : 0 < q) (hhi : q < 2 ^ (1023 : Int)) :
    nearestPattern q < infinityPattern ∧
      |magnitudeOfPattern (nearestPattern q) - q| ≤ 2 ^ spacingExponent q / 2 := by
  have hleast : -1074 ≤ spacingExponent q := le_max_right _ _
  have hmost : spacingExponent q ≤ 970 := by
    have hexponent := (zpow_lt_zpow_iff_right₀ (by norm_num)).mp
      ((binaryExponent_bounds hq).1.trans_lt hhi)
    rw [spacingExponent]
    omega
  obtain ⟨m, hm, hle, hnormal, hpattern⟩ := exists_nearest_units hq
  have herror := abs_nearestEven_sub_le (q * 2 ^ (-spacingExponent q))
  have hfinite : (spacingExponent q + 1074).toNat * binadeSize + m < infinityPattern := by
    have hspacing : (spacingExponent q + 1074).toNat ≤ 2044 := by omega
    rw [infinityPattern]
    nlinarith [binadeSize_pos]
  rw [min_eq_left hfinite.le] at hpattern
  rw [hm] at herror
  rw [hpattern, magnitudeOfPattern_units hleast hle hnormal]
  refine ⟨hfinite, ?_⟩
  calc
    |(m : Rat) * 2 ^ spacingExponent q - q| =
        |(m : Rat) - q * 2 ^ (-spacingExponent q)| * 2 ^ spacingExponent q := by
      rw [abs_sub_eq_units _ _ (spacingExponent q), units_mul_zpow]
    _ ≤ 1 / 2 * 2 ^ spacingExponent q := by gcongr; exact_mod_cast herror
    _ = 2 ^ spacingExponent q / 2 := by ring

/-- The nearest double is exact up to one part in `2 ^ 53`, but for the least rationals. -/
theorem abs_magnitudeOfPattern_sub_le {q : Rat} (hlo : 2 ^ (-1022 : Int) ≤ q)
    (hhi : q < 2 ^ (1023 : Int)) :
    |magnitudeOfPattern (nearestPattern q) - q| ≤ q / 2 ^ 53 := by
  have hq : 0 < q := lt_of_lt_of_le (by positivity) hlo
  obtain ⟨hle, hlt⟩ := binaryExponent_bounds hq
  have hexponent := (zpow_lt_zpow_iff_right₀ (by norm_num)).mp (hlo.trans_lt hlt)
  have hspacing : spacingExponent q = binaryExponent q - 52 := max_eq_left (by omega)
  calc
    |magnitudeOfPattern (nearestPattern q) - q| ≤ 2 ^ spacingExponent q / 2 :=
      (magnitudeOfPattern_nearestPattern hq hhi).2
    _ = 2 ^ binaryExponent q / 2 ^ 53 := by
      rw [hspacing, zpow_sub₀ (by norm_num)]
      norm_num
      ring
    _ ≤ q / 2 ^ 53 := by gcongr

/-! ## Range -/

theorem two_zpow_le_ten_zpow {k : Int} (hk : 0 ≤ k) : (2 : Rat) ^ k ≤ 10 ^ k :=
  zpow_le_zpow_left₀ hk (by norm_num) (by norm_num)

theorem ten_zpow_le_two_zpow {k : Int} (hk : k ≤ 0) : (10 : Rat) ^ k ≤ 2 ^ k := by
  obtain ⟨n, hn⟩ := Int.eq_ofNat_of_zero_le (neg_nonneg.mpr hk)
  rw [show k = -(n : Int) by omega, zpow_neg, zpow_neg]
  exact inv_anti₀ (by positivity) (two_zpow_le_ten_zpow (Int.natCast_nonneg n))

/-- Powers of ten far below and far above the magnitudes of doubles. -/
theorem magnitudeOfPattern_bounds {p : Nat} (hp : p < infinityPattern)
    (hpos : 0 < magnitudeOfPattern p) :
    (10 : Rat) ^ (-1074 : Int) ≤ magnitudeOfPattern p ∧
      magnitudeOfPattern p < (10 : Rat) ^ (1025 : Int) := by
  obtain ⟨m, k, hgrid, hq, hpattern⟩ := exists_onGrid p
  rw [hq] at hpos ⊢
  have hm : (1 : Rat) ≤ m := by
    rcases Nat.eq_zero_or_pos m with rfl | hm
    · simp at hpos
    · exact_mod_cast hm
  have hexponent : k ≤ 972 := by
    have hlt : (k + 1074).toNat * binadeSize < 2047 * binadeSize := by
      rw [← infinityPattern]
      omega
    have := lt_of_mul_lt_mul_right hlt (Nat.zero_le _)
    omega
  have hunits : (m : Rat) < 2 ^ (53 : Int) := by
    have hlt := hgrid.lt
    exact_mod_cast hlt
  constructor
  · calc
      (10 : Rat) ^ (-1074 : Int) ≤ 2 ^ (-1074 : Int) := ten_zpow_le_two_zpow (by norm_num)
      _ ≤ 2 ^ k := zpow_le_zpow_right₀ (by norm_num) hgrid.least
      _ ≤ m * 2 ^ k := le_mul_of_one_le_left (by positivity) hm
  · calc
      (m : Rat) * 2 ^ k < 2 ^ (53 : Int) * 2 ^ k := by gcongr
      _ = 2 ^ (53 + k) := two_zpow_mul 53 k
      _ ≤ 2 ^ (1025 : Int) := zpow_le_zpow_right₀ (by norm_num) (by omega)
      _ ≤ 10 ^ (1025 : Int) := two_zpow_le_ten_zpow (by norm_num)

end FourFunction.Numeric
