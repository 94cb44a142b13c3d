import FourFunction.Decimal.Basic
import FourFunction.Text.Trailing

/-! Decimals as texts: the digits with a point among them, and the removal of fraction zeros
that say nothing. -/

namespace FourFunction.Decimal

/-- `n` units of the place `10 ^ -places`, with exactly `places` digits after the point and no
point when there are none. -/
def pointed (places n : Nat) : List Char :=
  if places = 0 then Nat.toDigits 10 n
  else
    let unit := Nat.pow 10 places
    Nat.toDigits 10 (n / unit) ++ '.' :: List.leftpad places '0' (Nat.toDigits 10 (n % unit))

/-- Removes the zeros at the end of a text that has a point, and then any points at its end.
A text without a point is left alone. -/
def stripTrailingZeros (cs : List Char) : List Char :=
  if cs.contains '.' then Text.dropTrailing (· == '.') (Text.dropTrailing (· == '0') cs)
  else cs

def positional (d : Decimal) : List Char :=
  if 0 ≤ d.exponent then Nat.toDigits 10 (d.digits * Nat.pow 10 d.exponent.toNat)
  else stripTrailingZeros (pointed (-d.exponent).toNat d.digits)

def signText (negative : Bool) : List Char :=
  if negative then ['-'] else []

end FourFunction.Decimal
