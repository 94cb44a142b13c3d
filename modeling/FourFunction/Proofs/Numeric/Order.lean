import FourFunction.Proofs.Numeric.Rounded

/-! The order of doubles without a sign. It is that of their bits, so rounding keeps the order of
rationals. -/

namespace FourFunction.Numeric

open Float.Model (UnpackedFloat Format)
open Float.Model.UnpackedFloat (Sign unpack unpackExponent unpackMantissa)

/-! ## Unpacked doubles -/

/-- The mantissa of a normal double has a leading one that is not stored. -/
theorem toNat_one_append_unpackMantissa (b : BitVec 64) :
    (1#1 ++ @unpackMantissa .binary64 b).toNat = 2 ^ 52 + b.toNat % 2 ^ 52 := by
  rw [BitVec.toNat_append, ← Nat.shiftLeft_add_eq_or_of_lt (BitVec.isLt _), toNat_unpackMantissa]
  rfl

/-- An unpacked double without a sign is that of a pattern. -/
inductive HasPattern : UnpackedFloat → Nat → Prop where
  | zero : HasPattern (.zero .positive) 0
  | finite {m : Nat} {k : Int} {hpos : 0 < m} {p : Nat} : OnGrid m k →
      p = (k + 1074).toNat * binadeSize + m → p < infinityPattern →
      HasPattern (.finite .positive m k hpos) p
  | infinity : HasPattern (.infinity .positive) infinityPattern

theorem hasPattern_unpack {b : BitVec 64} (h : b.toNat ≤ infinityPattern) :
    HasPattern (unpack .binary64 b) b.toNat := by
  have hsign := unpackSign_eq_zero (h.trans_lt (by decide : infinityPattern < signPattern))
  have hpositive : Sign.ofBitVec 0#1 = .positive := rfl
  have hexponent := toNat_unpackExponent b
  have hmantissa := toNat_unpackMantissa b
  have hinfinity : infinityPattern = 2047 * 2 ^ 52 := by decide
  have hbinade : binadeSize = 2 ^ 52 := by decide
  have hbias : ((Format.binary64.exponentBias : Nat) : Int) = 1023 := rfl
  simp only [unpack, hsign, hpositive]
  -- An exponent of all ones is that of infinity, and one of all zeros that of the subnormals.
  split
  next hmost =>
    have hall : (@unpackExponent .binary64 b).toNat = 2047 := by rw [hmost]; rfl
    split
    next hzero =>
      have hp : b.toNat = infinityPattern := by
        have hm : (@unpackMantissa .binary64 b).toNat = 0 := by rw [hzero]; rfl
        omega
      rw [hp]
      exact .infinity
    next hzero =>
      have hm : (@unpackMantissa .binary64 b).toNat ≠ 0 :=
        fun h => hzero (BitVec.eq_of_toNat_eq h)
      omega
  next hmost =>
    have hall : (@unpackExponent .binary64 b).toNat ≠ 2047 :=
      fun h => hmost (BitVec.eq_of_toNat_eq h)
    split
    next hleast =>
      have hnone : (@unpackExponent .binary64 b).toNat = 0 := by rw [hleast]; rfl
      split
      next hzero =>
        have hp : b.toNat = 0 := by
          have hm : (@unpackMantissa .binary64 b).toNat = 0 := by rw [hzero]; rfl
          omega
        rw [hp]
        exact .zero
      next hzero =>
        refine .finite ⟨?_, ?_, ?_⟩ ?_ ?_
        · omega
        · omega
        · omega
        · rw [hbinade]
          omega
        · omega
    next hleast =>
      have hsome : (@unpackExponent .binary64 b).toNat ≠ 0 :=
        fun h => hleast (BitVec.eq_of_toNat_eq h)
      have hunits := toNat_one_append_unpackMantissa b
      refine .finite ⟨?_, ?_, ?_⟩ ?_ ?_
      · omega
      · omega
      · omega
      · rw [hbinade]
        omega
      · omega

/-- A larger spacing makes a larger pattern, whatever the units. -/
theorem OnGrid.lt_of_lt {m m' : Nat} {k k' : Int} (h : OnGrid m k) (h' : OnGrid m' k')
    (hk : k < k') : (k + 1074).toNat * binadeSize + m < (k' + 1074).toNat * binadeSize + m' := by
  have hleast := h.least
  have hlt := h.lt
  have hnormal := h'.normal.resolve_left (by omega)
  obtain ⟨j, hj⟩ := Int.le.dest (show k + 1074 + 1 ≤ k' + 1074 by omega)
  have hspacings : (k' + 1074).toNat = (k + 1074).toNat + 1 + j := by omega
  rw [hspacings, Nat.add_mul, Nat.add_mul]
  omega

theorem OnGrid.then_compare {m m' : Nat} {k k' : Int} (h : OnGrid m k) (h' : OnGrid m' k') :
    (compare k k').then (compare m m') =
      compare ((k + 1074).toNat * binadeSize + m) ((k' + 1074).toNat * binadeSize + m') := by
  rcases lt_trichotomy k k' with hk | rfl | hk
  · rw [compare_lt_iff_lt.mpr hk, compare_lt_iff_lt.mpr (h.lt_of_lt h' hk)]
    rfl
  · rw [compare_eq_iff_eq.mpr rfl, Ordering.eq_then, ← cmp_eq_compare, ← cmp_eq_compare,
      cmp_add_left]
  · rw [compare_gt_iff_gt.mpr hk, compare_gt_iff_gt.mpr (h'.lt_of_lt h hk)]
    rfl

/-- Patterns are in the order of the doubles. -/
theorem HasPattern.compare_eq {u v : UnpackedFloat} {p q : Nat} (hu : HasPattern u p)
    (hv : HasPattern v q) : u.compare v = some (compare p q) := by
  cases hu with
  | zero =>
      cases hv with
      | zero => rfl
      | @finite _ _ hpos _ hgrid hq hlt =>
          exact congrArg some (compare_lt_iff_lt.mpr (hq ▸ Nat.add_pos_right _ hpos)).symm
      | infinity => rfl
  | @finite m k hpos p hgrid hp hlt =>
      cases hv with
      | zero => exact congrArg some (compare_gt_iff_gt.mpr (hp ▸ Nat.add_pos_right _ hpos)).symm
      | finite hgrid' hq hlt' =>
          rw [hp, hq, ← hgrid.then_compare hgrid']
          rfl
      | infinity => exact congrArg some (compare_lt_iff_lt.mpr hlt).symm
  | infinity =>
      cases hv with
      | zero => rfl
      | finite hgrid' hq hlt' => exact congrArg some (compare_gt_iff_gt.mpr hlt').symm
      | infinity => rfl

/-! ## Doubles -/

theorem le_iff_of_compare {x y : Float} {o : Ordering}
    (h : x.toModel.unpack.compare y.toModel.unpack = some o) : x ≤ y ↔ o.isLE = true := by
  change (decide (x.toModel ≤ y.toModel) = true) ↔ _
  rw [decide_eq_true_eq]
  change Option.any (fun o => o.isLE) (x.toModel.unpack.compare y.toModel.unpack) = true ↔ _
  rw [h]
  rfl

theorem Unsigned.toBits_le {x : Float} (hx : Unsigned x) (hnumber : x.isNaN = false) :
    x.toBits.toNat ≤ infinityPattern := by
  rw [Unsigned] at hx
  have hnan := (Bool.eq_false_iff.mp hnumber)
  rw [ne_eq, isNaN_iff, not_lt, Nat.mod_eq_of_lt hx] at hnan
  exact hnan

/-- Doubles without a sign are in the order of their bits. -/
theorem Unsigned.le_iff {x y : Float} (hx : Unsigned x) (hy : Unsigned y)
    (hxnumber : x.isNaN = false) (hynumber : y.isNaN = false) :
    x ≤ y ↔ x.toBits.toNat ≤ y.toBits.toNat := by
  have hcompare := (hasPattern_unpack (hx.toBits_le hxnumber)).compare_eq
    (hasPattern_unpack (hy.toBits_le hynumber))
  rw [le_iff_of_compare hcompare, Nat.isLE_compare]
  exact Iff.rfl

/-- Rounding keeps the order of rationals. -/
theorem nearestFloat_mono {q q' : Rat} (hq : 0 ≤ q) (h : q ≤ q') :
    nearestFloat q ≤ nearestFloat q' := by
  rw [(unsigned_nearestFloat q).le_iff (unsigned_nearestFloat q') (isNaN_nearestFloat q)
    (isNaN_nearestFloat q'), toBits_nearestFloat, toBits_nearestFloat]
  exact nearestPattern_mono hq h

end FourFunction.Numeric
