import FourFunction.Numeric.Power

/-! Decimals: a natural number of units of one decimal place. -/

namespace FourFunction

open Numeric

/-- `digits` units of the place `10 ^ exponent`. -/
structure Decimal where
  digits : Nat
  exponent : Int
deriving DecidableEq

namespace Decimal

def value (d : Decimal) : Rat :=
  mkRat d.digits 1 * power 10 d.exponent

/-- The number of decimal digits of a natural number; zero has one. -/
def digitCount (n : Nat) : Nat :=
  (Nat.toDigits 10 n).length

/-- The exponent `e` with `10 ^ e ≤ q < 10 ^ (e + 1)`, for a positive rational. Below one it
is the least number of tenfold steps that reach one, negated. -/
def leadingExponent (q : Rat) : Int :=
  let num := q.num.toNat
  if q.den ≤ num then (digitCount (num / q.den) : Int) - 1
  else -(digitCount ((q.den - 1) / num) : Int)

/-- The decimal that equals a rational whose denominator is a power of two. -/
def ofDyadic (q : Rat) : Decimal :=
  let halvings := q.den.log2
  ⟨q.num.toNat * Nat.pow 5 halvings, -halvings⟩

end Decimal

end FourFunction
