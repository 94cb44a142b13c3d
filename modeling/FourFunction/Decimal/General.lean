import FourFunction.Decimal.Layout
import FourFunction.Numeric.Binary64

/-! The general format of results: six significant digits, in fixed notation for exponents from
-4 to 5 and in scientific notation outside, without fraction zeros at the end. -/

namespace FourFunction.Decimal

open Numeric

/-- A positive rational rounded to six significant digits. A carry out of the leading digit
moves to the next exponent. -/
def significant (q : Rat) : Decimal :=
  let exponent := leadingExponent q - 5
  let digits := (nearestEven (q * power 10 (-exponent))).toNat
  if digits = 1000000 then ⟨100000, exponent + 1⟩ else ⟨digits, exponent⟩

/-- The magnitude of an exponent in at least two digits, after its sign. -/
def exponentText (e : Int) : List Char :=
  (if e < 0 then '-' else '+') :: List.leftpad 2 '0' (Nat.toDigits 10 e.natAbs)

/-- One digit before the point, then the exponent of that digit. -/
def scientific (d : Decimal) : List Char :=
  stripTrailingZeros (pointed 5 d.digits) ++ 'e' :: exponentText (d.exponent + 5)

/-- A rational rounded to a number of places after the point. -/
def fixed (places : Nat) (q : Rat) : List Char :=
  stripTrailingZeros (pointed places (nearestEven (q * power 10 places)).toNat)

/-- The general format of a positive rational. The exponent that decides the notation is the
one after rounding to six digits. -/
def generalMagnitude (q : Rat) : List Char :=
  let rounded := significant q
  let leading := rounded.exponent + 5
  if leading < -4 ∨ 6 ≤ leading then scientific rounded
  else fixed (5 - leading).toNat q

def general (x : Float) : List Char :=
  match Reading.ofFloat x with
  | .nan => ['N', 'a', 'N']
  | .infinite negative => signText negative ++ ['I', 'n', 'f']
  | .finite negative magnitude =>
    signText negative ++ if magnitude = 0 then ['0'] else generalMagnitude magnitude

def generalText (x : Float) : String :=
  String.ofList (general x)

end FourFunction.Decimal
