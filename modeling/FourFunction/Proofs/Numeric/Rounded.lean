import FourFunction.Proofs.Numeric.Equality
import FourFunction.Proofs.Numeric.Overflow

/-! What rounding to doubles means: below the overflow bound a finite double is found such that none
is nearer. There is one such double only, since ties go to an even last bit. -/

namespace FourFunction.Numeric

/-! ## Nearest magnitudes -/

/-- Every pattern stands for more than the one before it. -/
theorem magnitudeOfPattern_strictMono : StrictMono magnitudeOfPattern := by
  refine strictMono_nat_of_lt_succ fun p => ?_
  obtain ⟨m, k, hgrid, hq, hpattern⟩ := exists_onGrid p
  have hnext := magnitudeOfPattern_units hgrid.least (show m + 1 ≤ 2 * binadeSize from hgrid.lt)
    (hgrid.normal.imp_right (Nat.le_succ_of_le ·))
  rw [← Nat.add_assoc, ← hpattern] at hnext
  rw [hnext, hq]
  gcongr
  exact Nat.lt_succ_self m

theorem magnitudeOfPattern_zero : magnitudeOfPattern 0 = 0 := by
  decide +kernel

/-- Another magnitude is not nearer than the nearest one, and if it is as near, its pattern is odd
and the nearest one even. -/
def Outdone (q : Rat) (p : Nat) : Prop :=
  |magnitudeOfPattern (nearestPattern q) - q| ≤ |magnitudeOfPattern p - q| ∧
    (|magnitudeOfPattern p - q| ≤ |magnitudeOfPattern (nearestPattern q) - q| →
      nearestPattern q % 2 = 0 ∧ p % 2 = 1)

section Nearest

variable {q : Rat} (hq : 0 < q) (hbound : q < overflowBound)

include hq hbound

theorem exists_finite_units : ∃ m : Nat, nearestEven (q * 2 ^ (-spacingExponent q)) = m ∧
    nearestPattern q = (spacingExponent q + 1074).toNat * binadeSize + m ∧
    magnitudeOfPattern (nearestPattern q) = m * (2 : Rat) ^ spacingExponent q := by
  obtain ⟨m, hm, hle, hnormal, hpattern⟩ := exists_nearest_units hq
  have hfinite : nearestPattern q ≠ infinityPattern :=
    fun h => absurd (nearestPattern_eq_infinityPattern_iff.mp h) (not_le.mpr hbound)
  have hexact : nearestPattern q = (spacingExponent q + 1074).toNat * binadeSize + m := by
    omega
  exact ⟨m, hm, hexact, hexact ▸ magnitudeOfPattern_units (le_max_right _ _) hle hnormal⟩

/-- A double with a smaller spacing lies below the binade of the rational, and the least double of
that binade is nearer. -/
theorem outdone_of_spacing_lt {p : Nat} {m : Nat} {k : Int} (hgrid : OnGrid m k)
    (hp : magnitudeOfPattern p = m * (2 : Rat) ^ k) (hk : k < spacingExponent q) :
    Outdone q p := by
  obtain ⟨n, hn, -, hnearest⟩ := exists_finite_units hq hbound
  obtain ⟨-, hlower⟩ := spacing_units_bounds hq
  have hleast := hgrid.least
  have hbinade := hlower.resolve_left (by omega)
  have hbelow : magnitudeOfPattern p * 2 ^ (-spacingExponent q) < binadeSize := by
    rw [zpow_neg, ← div_eq_mul_inv, div_lt_iff₀ (by positivity), hp]
    have hm : (m : Rat) < 2 * binadeSize := by exact_mod_cast hgrid.lt
    calc
      (m : Rat) * 2 ^ k < 2 * binadeSize * 2 ^ k := by gcongr
      _ = binadeSize * 2 ^ (k + 1) := by rw [zpow_add_one₀ (by norm_num)]; ring
      _ ≤ binadeSize * 2 ^ spacingExponent q := by
        gcongr
        · norm_num
        · omega
  -- The least double of the binade lies between the other one and the rational.
  have hunits := abs_nearestEven_sub_le_abs (q * 2 ^ (-spacingExponent q)) binadeSize
  have hstrict : |magnitudeOfPattern (nearestPattern q) - q| < |magnitudeOfPattern p - q| := by
    rw [← not_le, abs_sub_le_iff_units (spacingExponent q), not_le, hnearest, units_mul_zpow]
    rw [hn] at hunits
    push_cast at hunits
    generalize q * 2 ^ (-spacingExponent q) = u at *
    refine hunits.trans_lt ?_
    rw [abs_of_nonpos (by linarith), abs_of_nonpos (by linarith)]
    linarith
  exact ⟨hstrict.le, fun h => absurd h (not_le.mpr hstrict)⟩

omit hbound in
/-- Units that are not far from a rational make up a magnitude with its spacing. -/
theorem magnitudeOfPattern_near_units {i : Nat}
    (h : |(i : Rat) - q * 2 ^ (-spacingExponent q)| ≤ 1 / 2) :
    magnitudeOfPattern ((spacingExponent q + 1074).toNat * binadeSize + i) =
      i * (2 : Rat) ^ spacingExponent q := by
  obtain ⟨hupper, hlower⟩ := spacing_units_bounds hq
  obtain ⟨hleft, hright⟩ := abs_le.mp h
  refine magnitudeOfPattern_units (le_max_right _ _) ?_ ?_
  · have hlt : (i : Rat) < (2 * binadeSize + 1 : Nat) := by
      push_cast
      linarith
    exact Nat.lt_succ_iff.mp (by exact_mod_cast hlt)
  · apply hlower.imp_right
    intro hbinade
    have hlt : (binadeSize : Rat) < (i + 1 : Nat) := by
      push_cast
      linarith
    exact Nat.lt_succ_iff.mp (by exact_mod_cast hlt)

/-- A double with at least the spacing of the rational is a whole number of its spacings. -/
theorem outdone_of_le_spacing {p : Nat} {m : Nat} {k : Int}
    (hp : magnitudeOfPattern p = m * (2 : Rat) ^ k) (hk : spacingExponent q ≤ k)
    (hne : p ≠ nearestPattern q) : Outdone q p := by
  obtain ⟨n, hn, hpattern, hnearest⟩ := exists_finite_units hq hbound
  obtain ⟨j, hj⟩ := Int.eq_ofNat_of_zero_le (sub_nonneg.mpr hk)
  have hwhole : magnitudeOfPattern p = ((m * 2 ^ j : Nat) : Rat) * 2 ^ spacingExponent q := by
    rw [hp, show k = j + spacingExponent q by omega, ← two_zpow_mul, zpow_natCast]
    push_cast
    ring
  generalize m * 2 ^ j = i at hwhole
  have hother : (i : Int) ≠ nearestEven (q * 2 ^ (-spacingExponent q)) := by
    intro heq
    rw [hn] at heq
    refine hne (magnitudeOfPattern_strictMono.injective ?_)
    rw [hwhole, hnearest, show i = n by exact_mod_cast heq]
  have hle := abs_nearestEven_sub_le_abs (q * 2 ^ (-spacingExponent q)) i
  have herror := abs_nearestEven_sub_le (q * 2 ^ (-spacingExponent q))
  have hneighbour := neighbour_of_tie hother
  have hi := magnitudeOfPattern_near_units hq (i := i)
  rw [hn] at hle herror hneighbour
  push_cast at hle herror hneighbour
  rw [Outdone, abs_sub_le_iff_units (spacingExponent q),
    abs_sub_le_iff_units (r := magnitudeOfPattern p) (spacingExponent q), hnearest, hwhole,
    units_mul_zpow, units_mul_zpow]
  refine ⟨hle, fun htie => ?_⟩
  have := hneighbour htie
  have hip : p = (spacingExponent q + 1074).toNat * binadeSize + i :=
    magnitudeOfPattern_strictMono.injective (hwhole.trans (hi (htie.trans herror)).symm)
  have heach : (spacingExponent q + 1074).toNat * binadeSize % 2 = 0 := by
    rw [Nat.mul_mod, show binadeSize % 2 = 0 from rfl, Nat.mul_zero]
  rw [hpattern, hip]
  omega

end Nearest

/-- No magnitude is nearer than the nearest one. -/
theorem outdone {q : Rat} (hq : 0 ≤ q) (hbound : q < overflowBound) {p : Nat}
    (hne : p ≠ nearestPattern q) : Outdone q p := by
  rcases hq.eq_or_lt with rfl | hq
  · have hzero : nearestPattern 0 = 0 := rfl
    have hpos : 0 < magnitudeOfPattern p := by
      rw [← magnitudeOfPattern_zero]
      exact magnitudeOfPattern_strictMono (Nat.pos_of_ne_zero (hzero ▸ hne))
    rw [Outdone, hzero, magnitudeOfPattern_zero, sub_zero, sub_zero, abs_zero, abs_of_pos hpos]
    exact ⟨hpos.le, fun h => absurd h (not_le.mpr hpos)⟩
  · obtain ⟨m, k, hgrid, hp, -⟩ := exists_onGrid p
    rcases lt_or_ge k (spacingExponent q) with hk | hk
    · exact outdone_of_spacing_lt hq hbound hgrid hp hk
    · exact outdone_of_le_spacing hq hbound hp hk hne

theorem abs_nearest_sub_le {q : Rat} (hq : 0 ≤ q) (hbound : q < overflowBound) (p : Nat) :
    |magnitudeOfPattern (nearestPattern q) - q| ≤ |magnitudeOfPattern p - q| := by
  rcases eq_or_ne p (nearestPattern q) with rfl | hne
  · exact le_rfl
  · exact (outdone hq hbound hne).1

theorem nearestPattern_mono {q q' : Rat} (hq : 0 ≤ q) (h : q ≤ q') :
    nearestPattern q ≤ nearestPattern q' := by
  by_contra hlt
  rw [not_le] at hlt
  have hbound' : q' < overflowBound := by
    rw [← not_le, ← nearestPattern_eq_infinityPattern_iff]
    exact (hlt.trans_le (nearestPattern_le q)).ne
  have hleft := abs_nearest_sub_le hq (h.trans_lt hbound') (nearestPattern q')
  have hright := abs_nearest_sub_le (hq.trans h) hbound' (nearestPattern q)
  have hmagnitude := magnitudeOfPattern_strictMono hlt
  -- Both rationals lie halfway between the two magnitudes.
  have hsame : q = q' := by
    have hleft' := sq_le_sq.mpr hleft
    have hright' := sq_le_sq.mpr hright
    generalize magnitudeOfPattern (nearestPattern q) = upper at *
    generalize magnitudeOfPattern (nearestPattern q') = lower at *
    have hbelow : lower + upper ≤ 2 * q := by nlinarith
    have habove : 2 * q' ≤ lower + upper := by nlinarith
    linarith
  exact absurd (hsame ▸ hlt) (lt_irrefl _)

/-! ## Doubles -/

/-- The rational that a finite double stands for. -/
def Reading.rational? : Reading → Option Rat
  | .finite negative magnitude => some (if negative then -magnitude else magnitude)
  | _ => none

/-- A double to which a rational is rounded. It has no sign and is a number, and it is infinite from
the bound on. If it is finite, no finite double of either sign is nearer, and of two that are
equally near it is the one with an even last bit. -/
structure IsNearest (q : Rat) (x : Float) : Prop where
  unsigned : Unsigned x
  number : x.isNaN = false
  infinite_iff : Reading.ofFloat x = .infinite false ↔ overflowBound ≤ q
  nearest : ∀ r, (Reading.ofFloat x).rational? = some r →
    ∀ y s, (Reading.ofFloat y).rational? = some s → |r - q| ≤ |s - q|
  even : ∀ r, (Reading.ofFloat x).rational? = some r →
    ∀ y s, (Reading.ofFloat y).rational? = some s → s ≠ r → |s - q| = |r - q| →
      x.toBits.toNat % 2 = 0

theorem exists_of_rational?_eq_some {y : Float} {s : Rat}
    (h : (Reading.ofFloat y).rational? = some s) : s < 0 ∨ ∃ p, s = magnitudeOfPattern p := by
  cases hy : Reading.ofFloat y with
  | nan => simp [hy, Reading.rational?] at h
  | infinite negative => simp [hy, Reading.rational?] at h
  | finite negative magnitude =>
      obtain ⟨p, -, rfl⟩ := exists_pattern hy
      rw [hy, Reading.rational?, Option.some.injEq] at h
      cases negative with
      | false => exact .inr ⟨p, h.symm⟩
      | true =>
          rcases (magnitudeOfPattern_nonneg p).eq_or_lt with hzero | hpos
          · exact .inr ⟨0, by simp [← h, ← hzero, magnitudeOfPattern_zero]⟩
          · exact .inl (by simpa [← h] using hpos)

theorem rational?_nearestFloat {q r : Rat}
    (h : (Reading.ofFloat (nearestFloat q)).rational? = some r) :
    q < overflowBound ∧ r = magnitudeOfPattern (nearestPattern q) := by
  rw [ofFloat_nearestFloat] at h
  split at h
  next hfinite =>
    rw [← not_le, ← nearestPattern_eq_infinityPattern_iff]
    exact ⟨hfinite.ne, (Option.some.inj h).symm⟩
  · simp [Reading.rational?] at h

/-- Zero is nearer than any negative number. -/
theorem abs_nearest_sub_lt_of_neg {q s : Rat} (hq : 0 ≤ q) (hbound : q < overflowBound)
    (hs : s < 0) : |magnitudeOfPattern (nearestPattern q) - q| < |s - q| := by
  have hzero := abs_nearest_sub_le hq hbound 0
  rw [magnitudeOfPattern_zero, zero_sub, abs_neg, abs_of_nonneg hq] at hzero
  rw [abs_of_neg (a := s - q) (by linarith)]
  linarith

theorem isNearest_nearestFloat {q : Rat} (hq : 0 ≤ q) : IsNearest q (nearestFloat q) where
  unsigned := unsigned_nearestFloat q
  number := isNaN_nearestFloat q
  infinite_iff := by
    rw [ofFloat_nearestFloat, ← nearestPattern_eq_infinityPattern_iff]
    have hle := nearestPattern_le q
    split
    next hfinite => simp [hfinite.ne]
    next hinfinite => simp [le_antisymm hle (not_lt.mp hinfinite)]
  nearest := by
    intro r hr y s hs
    obtain ⟨hbound, rfl⟩ := rational?_nearestFloat hr
    rcases exists_of_rational?_eq_some hs with hneg | ⟨p, rfl⟩
    · exact (abs_nearest_sub_lt_of_neg hq hbound hneg).le
    · exact abs_nearest_sub_le hq hbound p
  even := by
    intro r hr y s hs hne htie
    obtain ⟨hbound, rfl⟩ := rational?_nearestFloat hr
    rw [toBits_nearestFloat]
    rcases exists_of_rational?_eq_some hs with hneg | ⟨p, rfl⟩
    · exact absurd htie (abs_nearest_sub_lt_of_neg hq hbound hneg).ne'
    · have hp : p ≠ nearestPattern q := fun h => hne (congrArg magnitudeOfPattern h)
      exact ((outdone hq hbound hp).2 htie.le).1

theorem Unsigned.exists_finite {x : Float} (hx : Unsigned x) (hnumber : x.isNaN = false)
    (hfinite : Reading.ofFloat x ≠ .infinite false) :
    ∃ r, Reading.ofFloat x = .finite false r := by
  rw [Unsigned] at hx
  cases h : Reading.ofFloat x with
  | nan => exact absurd ((isNaN_iff_ofFloat.mpr h).symm.trans hnumber) (by decide)
  | infinite negative =>
      cases negative with
      | false => exact absurd h hfinite
      | true =>
          rw [toBits_of_infinite h, if_pos rfl] at hx
          omega
  | finite negative r =>
      cases negative with
      | false => exact ⟨r, rfl⟩
      | true =>
          rw [toBits_of_finite h, if_pos rfl] at hx
          omega

/-- A rational is rounded to one double only. -/
theorem IsNearest.eq_nearestFloat {q : Rat} {x : Float} (hq : 0 ≤ q) (h : IsNearest q x) :
    x = nearestFloat q := by
  have hnearest := isNearest_nearestFloat hq
  by_cases hbound : overflowBound ≤ q
  · exact ofFloat_injective
      ((h.infinite_iff.mpr hbound).trans (hnearest.infinite_iff.mpr hbound).symm)
  · obtain ⟨r, hr⟩ := h.unsigned.exists_finite h.number (mt h.infinite_iff.mp hbound)
    obtain ⟨s, hs⟩ := hnearest.unsigned.exists_finite hnearest.number
      (mt hnearest.infinite_iff.mp hbound)
    have hr' : (Reading.ofFloat x).rational? = some r := by rw [hr]; rfl
    have hs' : (Reading.ofFloat (nearestFloat q)).rational? = some s := by rw [hs]; rfl
    obtain ⟨-, rfl⟩ := ofFloat_eq_finite hr
    obtain ⟨hlt, rfl⟩ := rational?_nearestFloat hs'
    by_contra hne
    have hpattern : x.toBits.toNat ≠ nearestPattern q :=
      fun heq => hne (nearestFloat_eq heq.symm).symm
    obtain ⟨hle, hodd⟩ := outdone hq hlt hpattern
    have hge := h.nearest _ hr' _ _ hs'
    have heven := h.even _ hr' _ _ hs'
      (magnitudeOfPattern_strictMono.injective.ne hpattern.symm) (le_antisymm hle hge)
    have := (hodd hge).2
    omega

end FourFunction.Numeric
