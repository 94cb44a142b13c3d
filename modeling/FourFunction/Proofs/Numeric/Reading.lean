import FourFunction.Proofs.Numeric.Nearest
import Mathlib

/-! Doubles and the bits that stand for them. The nearest double to a rational has the pattern that
is nearest to it, and a finite double without a sign is the nearest one to what it denotes. -/

namespace FourFunction.Numeric

open Float.Model (UnpackedFloat)

theorem nearestPattern_le (q : Rat) : nearestPattern q ≤ infinityPattern := by
  rw [nearestPattern]
  split
  · exact Nat.zero_le _
  · exact min_le_right _ _

theorem toNat_unpackExponent (b : BitVec 64) :
    (@UnpackedFloat.unpackExponent .binary64 b).toNat = b.toNat / 2 ^ 52 % 2 ^ 11 := by
  rw [UnpackedFloat.unpackExponent_def, BitVec.extractLsb'_toNat, Nat.shiftRight_eq_div_pow]

theorem toNat_unpackMantissa (b : BitVec 64) :
    (@UnpackedFloat.unpackMantissa .binary64 b).toNat = b.toNat % 2 ^ 52 := by
  rw [UnpackedFloat.unpackMantissa_def, BitVec.extractLsb'_toNat]
  rfl

/-- The patterns above that of infinity are those that are not numbers. -/
theorem isNaNBits_iff {b : BitVec 64} :
    @UnpackedFloat.isNaNBits .binary64 b = true ↔ infinityPattern < b.toNat % signPattern := by
  have hinfinity : infinityPattern = 2047 * 2 ^ 52 := by decide
  have hsign : signPattern = 2 ^ 63 := by decide
  have hexponent : @UnpackedFloat.unpackExponent .binary64 b = -1 ↔
      b.toNat / 2 ^ 52 % 2 ^ 11 = 2 ^ 11 - 1 := by
    rw [← BitVec.toNat_inj, toNat_unpackExponent]
    rfl
  have hmantissa : @UnpackedFloat.unpackMantissa .binary64 b = 0 ↔ b.toNat % 2 ^ 52 = 0 := by
    rw [← BitVec.toNat_inj, toNat_unpackMantissa]
    rfl
  have hlt := b.isLt
  rw [UnpackedFloat.isNaNBits, decide_eq_true_eq, hinfinity, hsign]
  change @UnpackedFloat.unpackExponent .binary64 b = -1 ∧
    @UnpackedFloat.unpackMantissa .binary64 b ≠ 0 ↔ _
  rw [hexponent, ne_eq, hmantissa]
  omega

theorem not_isNaNBits_of_le {b : BitVec 64} (h : b.toNat ≤ infinityPattern) :
    ¬ @UnpackedFloat.isNaNBits .binary64 b := by
  rw [isNaNBits_iff, not_lt]
  exact (Nat.mod_le _ _).trans h

theorem toBits_ofBits_of_le {b : UInt64} (h : b.toNat ≤ infinityPattern) :
    (Float.ofBits b).toBits = b := by
  refine UInt64.toBitVec_inj.mp ?_
  refine (@UnpackedFloat.pack_unpack .binary64 b.toBitVec (by decide)).trans ?_
  exact if_neg (not_isNaNBits_of_le h)

theorem toBits_nearestFloat (q : Rat) : (nearestFloat q).toBits.toNat = nearestPattern q := by
  have hlt : nearestPattern q < 2 ^ 64 := (nearestPattern_le q).trans_lt (by decide)
  have hnat : (UInt64.ofNat (nearestPattern q)).toNat = nearestPattern q :=
    UInt64.toNat_ofNat_of_lt' hlt
  rw [nearestFloat, toBits_ofBits_of_le (by rw [hnat]; exact nearestPattern_le q), hnat]

/-- The nearest double is never negative, and infinite only from the pattern of infinity on. -/
theorem ofFloat_nearestFloat (q : Rat) :
    Reading.ofFloat (nearestFloat q) =
      if nearestPattern q < infinityPattern then
        .finite false (magnitudeOfPattern (nearestPattern q))
      else .infinite false := by
  have hle := nearestPattern_le q
  have hsign : nearestPattern q < signPattern := hle.trans_lt (by decide)
  rw [Reading.ofFloat]
  simp only [toBits_nearestFloat, Nat.mod_eq_of_lt hsign, not_le.mpr hsign, decide_false]
  split
  · rfl
  next h => rw [if_pos (le_antisymm hle (not_lt.mp h))]

theorem exists_pattern {x : Float} {negative : Bool} {q : Rat}
    (h : Reading.ofFloat x = .finite negative q) :
    ∃ p < infinityPattern, q = magnitudeOfPattern p := by
  simp only [Reading.ofFloat] at h
  split at h
  next hfinite => exact ⟨_, hfinite, (Reading.finite.inj h).2.symm⟩
  · split at h <;> simp at h

/-- A finite double with the sign bit clear is its own pattern. -/
theorem ofFloat_eq_finite {x : Float} {q : Rat} (h : Reading.ofFloat x = .finite false q) :
    x.toBits.toNat < infinityPattern ∧ q = magnitudeOfPattern x.toBits.toNat := by
  simp only [Reading.ofFloat] at h
  split at h
  next hfinite =>
    simp only [Reading.finite.injEq, decide_eq_false_iff_not, not_le] at h
    obtain ⟨hsign, rfl⟩ := h
    rw [Nat.mod_eq_of_lt hsign] at hfinite ⊢
    exact ⟨hfinite, rfl⟩
  · split at h <;> simp at h

theorem eq_of_toBits_eq {x y : Float} (h : x.toBits.toNat = y.toBits.toNat) : x = y := by
  rw [← x.ofBits_toBits, ← y.ofBits_toBits, UInt64.toNat_inj.mp h]

/-- The bits of a double are its sign and the pattern of its magnitude. -/
theorem toBits_eq_add_mod (x : Float) : x.toBits.toNat =
    (if signPattern ≤ x.toBits.toNat then signPattern else 0) + x.toBits.toNat % signPattern := by
  have hsign : signPattern = 2 ^ 63 := by decide
  have hlt := x.toBits.toNat_lt
  rw [hsign]
  split <;> omega

/-- The bits of a finite double in terms of what it denotes. -/
theorem toBits_of_finite {x : Float} {negative : Bool} {q : Rat}
    (h : Reading.ofFloat x = .finite negative q) :
    x.toBits.toNat = (if negative then signPattern else 0) + nearestPattern q := by
  rw [toBits_eq_add_mod]
  simp only [Reading.ofFloat] at h
  split at h
  next hfinite =>
    obtain ⟨rfl, rfl⟩ := Reading.finite.inj h
    rw [nearestPattern_magnitudeOfPattern hfinite.le]
    simp only [decide_eq_true_eq]
  · split at h <;> simp at h

theorem toBits_of_infinite {x : Float} {negative : Bool}
    (h : Reading.ofFloat x = .infinite negative) :
    x.toBits.toNat = (if negative then signPattern else 0) + infinityPattern := by
  rw [toBits_eq_add_mod]
  simp only [Reading.ofFloat] at h
  split at h
  · simp at h
  · split at h
    next hinfinite =>
      obtain rfl := Reading.infinite.inj h
      rw [hinfinite]
      simp only [decide_eq_true_eq]
    · simp at h

theorem nearestFloat_eq {x : Float} {q : Rat} (h : nearestPattern q = x.toBits.toNat) :
    nearestFloat q = x := by
  rw [nearestFloat, h, UInt64.ofNat_toNat, Float.ofBits_toBits]

end FourFunction.Numeric
