import FourFunction.Proofs.Numeric.Reading

/-! Equality of doubles. It is reflexive but for values that are not numbers, and it finds the two
zeros equal. Among doubles without a sign it is equality of bits. What a double denotes determines
it, the sign of zero included. -/

namespace FourFunction.Numeric

open Float.Model (UnpackedFloat)
open Float.Model.UnpackedFloat (Sign unpack unpackSign)

/-- The sign bit of a double is clear. -/
def Unsigned (x : Float) : Prop :=
  x.toBits.toNat < signPattern

/-! ## Unpacked doubles -/

/-- Unpacked doubles without a sign. -/
inductive Positive : UnpackedFloat → Prop where
  | infinity : Positive (.infinity .positive)
  | notANumber : Positive .notANumber
  | zero : Positive (.zero .positive)
  | finite (mantissa : Nat) (exponent : Int) (hpos : 0 < mantissa) :
      Positive (.finite .positive mantissa exponent hpos)

/-- Only zeros of different signs are equal without being the same. -/
theorem Positive.eq_of_compare {u v : UnpackedFloat} (hu : Positive u) (hv : Positive v)
    (h : u.compare v = some .eq) : u = v := by
  cases hu <;> cases hv <;> simp_all [UnpackedFloat.compare]

theorem unpackSign_eq_zero {b : BitVec 64} (h : b.toNat < signPattern) :
    @unpackSign .binary64 b = 0#1 := by
  refine BitVec.eq_of_toNat_eq ?_
  have hquot : b.toNat / 2 ^ 63 = 0 := Nat.div_eq_of_lt h
  change (b.toNat >>> 63) % 2 = 0
  rw [Nat.shiftRight_eq_div_pow, hquot]

theorem positive_unpack {b : BitVec 64} (h : b.toNat < signPattern) :
    Positive (unpack .binary64 b) := by
  have hsign := unpackSign_eq_zero h
  have hpositive : Sign.ofBitVec 0#1 = .positive := rfl
  simp only [unpack, hsign, hpositive]
  split
  · split
    · exact .infinity
    · exact .notANumber
  · split
    · split
      · exact .zero
      · exact .finite _ _ _
    · exact .finite _ _ _

theorem compare_self_eq_some_iff (u : UnpackedFloat) :
    u.compare u = some .eq ↔ u.isNaN = false := by
  cases u with
  | infinity sign => cases sign <;> simp [UnpackedFloat.compare, UnpackedFloat.isNaN] <;> rfl
  | notANumber => simp [UnpackedFloat.compare, UnpackedFloat.isNaN]
  | zero sign => simp [UnpackedFloat.compare, UnpackedFloat.isNaN]
  | finite sign mantissa exponent hpos =>
      cases sign <;> simp [UnpackedFloat.compare, UnpackedFloat.isNaN]

theorem isNaN_unpack (b : BitVec 64) :
    (unpack .binary64 b).isNaN = @UnpackedFloat.isNaNBits .binary64 b := by
  rw [unpack, UnpackedFloat.isNaNBits]
  simp only
  split
  next hexponent =>
    split
    next hmantissa => simp [hmantissa, UnpackedFloat.isNaN]
    next hmantissa => simp [hexponent, hmantissa, UnpackedFloat.isNaN]
  next hexponent =>
    simp only [hexponent, false_and, decide_false]
    split
    · split <;> rfl
    · rfl

theorem isNaN_unpack_of_le {b : BitVec 64} (h : b.toNat ≤ infinityPattern) :
    (unpack .binary64 b).isNaN = false := by
  rw [isNaN_unpack]
  simpa using not_isNaNBits_of_le h

/-! ## Doubles -/

theorem beq_eq_true_iff {x y : Float} :
    (x == y) = true ↔ x.toModel.unpack.compare y.toModel.unpack = some .eq := by
  change (x.toModel.unpack.compare y.toModel.unpack == some .eq) = true ↔ _
  exact beq_iff_eq

theorem beq_self_iff (x : Float) : (x == x) = true ↔ x.isNaN = false :=
  beq_eq_true_iff.trans (compare_self_eq_some_iff _)

theorem eq_of_unpack_eq {x y : Float} (h : x.toModel.unpack = y.toModel.unpack) : x = y :=
  calc
    x = .ofModel (.pack x.toModel.unpack) := (Float.ofBits_toBits x).symm
    _ = .ofModel (.pack y.toModel.unpack) := by rw [h]
    _ = y := Float.ofBits_toBits y

/-- Doubles without a sign that are equal have the same bits. -/
theorem Unsigned.eq_of_beq {x y : Float} (hx : Unsigned x) (hy : Unsigned y)
    (h : (x == y) = true) : x = y :=
  eq_of_unpack_eq ((positive_unpack hx).eq_of_compare (positive_unpack hy) (beq_eq_true_iff.mp h))

theorem unsigned_nearestFloat (q : Rat) : Unsigned (nearestFloat q) := by
  rw [Unsigned, toBits_nearestFloat]
  exact (nearestPattern_le q).trans_lt (by decide)

theorem isNaN_nearestFloat (q : Rat) : (nearestFloat q).isNaN = false := by
  apply isNaN_unpack_of_le
  change (nearestFloat q).toBits.toNat ≤ infinityPattern
  rw [toBits_nearestFloat]
  exact nearestPattern_le q

/-! ## Readings -/

theorem isNaN_iff {x : Float} : x.isNaN = true ↔ infinityPattern < x.toBits.toNat % signPattern :=
  (Bool.eq_iff_iff.mp (isNaN_unpack _)).trans isNaNBits_iff

theorem isNaN_iff_ofFloat {x : Float} : x.isNaN = true ↔ Reading.ofFloat x = .nan := by
  rw [isNaN_iff]
  simp only [Reading.ofFloat]
  split
  next h => simp [h.le]
  next h =>
    split
    next heq => simp [heq]
    next hne => simpa using lt_of_le_of_ne (not_lt.mp h) (Ne.symm hne)

/-- There is one value only that is not a number. -/
theorem eq_of_isNaN {x y : Float} (hx : x.isNaN = true) (hy : y.isNaN = true) : x = y := by
  have hnan : ∀ {z : Float}, z.isNaN = true → z.toModel.unpack = .notANumber := by
    intro z hz
    change z.toModel.unpack.isNaN = true at hz
    cases hu : z.toModel.unpack <;> simp_all [UnpackedFloat.isNaN]
  exact eq_of_unpack_eq ((hnan hx).trans (hnan hy).symm)

/-- A double is determined by what it denotes. -/
theorem ofFloat_injective : Function.Injective Reading.ofFloat := by
  intro x y h
  cases hx : Reading.ofFloat x with
  | nan => exact eq_of_isNaN (isNaN_iff_ofFloat.mpr hx) (isNaN_iff_ofFloat.mpr (h ▸ hx))
  | infinite negative =>
      exact eq_of_toBits_eq ((toBits_of_infinite hx).trans (toBits_of_infinite (h ▸ hx)).symm)
  | finite negative q =>
      exact eq_of_toBits_eq ((toBits_of_finite hx).trans (toBits_of_finite (h ▸ hx)).symm)

end FourFunction.Numeric
