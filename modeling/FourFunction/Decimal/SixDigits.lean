import FourFunction.Decimal.General
import FourFunction.Text.Split

/-! The general format of a finite double found in steps. First the double is written with six
significant digits and an exponent, and that text is taken apart again: the exponent decides between
the notations. Should there be none that can be read, the text itself is shown. -/

namespace FourFunction.Decimal

open Numeric Text

def integerText (z : Int) : List Char :=
  signText (z < 0) ++ Nat.toDigits 10 z.natAbs

/-- Whether a text starts with a minus, and the text after its sign if it has one. -/
def readSign : List Char → Bool × List Char
  | '-' :: ds => (true, ds)
  | '+' :: ds => (false, ds)
  | ds => (false, ds)

/-- The 32-bit integer of which a text holds the digits, after a sign or none. -/
def readInteger? (cs : List Char) : Option Int :=
  let (negative, digits) := readSign cs
  let magnitude : Int := Nat.ofDigitChars 10 digits 0
  let z := if negative then -magnitude else magnitude
  if digits ≠ [] ∧ digits.all Char.isDigit ∧ -2147483648 ≤ z ∧ z < 2147483648 then some z else none

/-- A magnitude with its sign in six significant digits, one of them before the point. The exponent
is written without zeros before it. -/
def sixDigitText (negative : Bool) (q : Rat) : List Char :=
  let rounded := significant q
  signText negative ++ pointed 5 rounded.digits ++ 'e' :: integerText (rounded.exponent + 5)

/-- A magnitude with its sign, rounded to a number of places after the point. -/
def placesText (negative : Bool) (places : Nat) (q : Rat) : List Char :=
  signText negative ++ pointed places (nearestEven (q * power 10 places)).toNat

/-- A magnitude with its sign in the general format. -/
def generalOfText (negative : Bool) (q : Rat) : List Char :=
  let text := sixDigitText negative q
  match splitFirst? 'e' text with
  | none => text
  | some (mantissa, exponent) =>
    match readInteger? exponent with
    | none => text
    | some leading =>
      if leading < -4 ∨ 6 ≤ leading then
        stripTrailingZeros mantissa ++ 'e' :: exponentText leading
      else stripTrailingZeros (placesText negative (5 - leading).toNat q)

end FourFunction.Decimal
