import FourFunction.Numeric.Power
import FourFunction.Numeric.Rounding

/-! Doubles as exact rationals, and rationals as doubles. The magnitude of a double is given by
its lower 63 bits read as a natural number: these patterns count the magnitudes upward, from
zero through the subnormals and the binades to infinity. -/

namespace FourFunction.Numeric

/-- The number of magnitudes that share one exponent. -/
def binadeSize : Nat := Nat.pow 2 52

/-- The magnitude pattern of infinity; the patterns above it are not numbers. -/
def infinityPattern : Nat := 2047 * binadeSize

/-- The sign pattern, added to the magnitude pattern of a negative double. -/
def signPattern : Nat := Nat.pow 2 63

/-- The rational denoted by a magnitude pattern below `infinityPattern`. -/
def magnitudeOfPattern (pattern : Nat) : Rat :=
  if pattern < binadeSize then mkRat pattern 1 * power 2 (-1074)
  else mkRat (binadeSize + pattern % binadeSize : Nat) 1 *
    power 2 ((pattern / binadeSize : Nat) - 1075)

/-- The exponent `e` with `2 ^ e ≤ q < 2 ^ (e + 1)`, for a positive rational. -/
def binaryExponent (q : Rat) : Int :=
  let estimate : Int := (q.num.toNat.log2 : Int) - (q.den.log2 : Int)
  if q < power 2 estimate then estimate - 1 else estimate

/-- The exponent of the spacing of the doubles around a positive rational. -/
def spacingExponent (q : Rat) : Int :=
  max (binaryExponent q - 52) (-1074)

/-- The magnitude pattern of the double nearest to a nonnegative rational, ties going to the
even pattern. A carry into the next binade is the next pattern, and everything from halfway
above the largest finite double upward is infinite. -/
def nearestPattern (q : Rat) : Nat :=
  if q.num ≤ 0 then 0
  else
    let e := spacingExponent q
    min ((e + 1074).toNat * binadeSize + (nearestEven (q * power 2 (-e))).toNat) infinityPattern

def nearestFloat (q : Rat) : Float :=
  Float.ofBits (UInt64.ofNat (nearestPattern q))

/-- What a double denotes. The sign of zero is kept. -/
inductive Reading where
  | nan
  | infinite (negative : Bool)
  | finite (negative : Bool) (magnitude : Rat)
deriving DecidableEq

def Reading.ofFloat (x : Float) : Reading :=
  let bits := x.toBits.toNat
  let negative := decide (signPattern ≤ bits)
  let pattern := bits % signPattern
  if pattern < infinityPattern then .finite negative (magnitudeOfPattern pattern)
  else if pattern = infinityPattern then .infinite negative
  else .nan

end FourFunction.Numeric
