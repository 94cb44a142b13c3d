import FourFunction.Decimal.Layout
import FourFunction.Numeric.Binary64

/-! The shortest decimal that reads back as a given double, and the text of a double made of
it. Literals appear in this form in trees and in messages. -/

namespace FourFunction.Decimal

open Numeric

/-- Whether a decimal rounds to the same double as `q`. -/
def readsBackAs (q : Rat) (d : Decimal) : Bool :=
  nearestPattern d.value == nearestPattern q

/-- The better of the two neighbours of `q` among the decimals with `extra` digits after the
leading one. A neighbour has to read back as `q`; of two that do, the nearer is taken, and the
upper one when they are equally near. -/
def neighbour? (q : Rat) (extra : Nat) : Option Decimal :=
  let exponent := leadingExponent q - extra
  let scaled := q * power 10 (-exponent)
  let below : Decimal := ⟨scaled.floor.toNat, exponent⟩
  let above : Decimal := ⟨scaled.floor.toNat + 1, exponent⟩
  if readsBackAs q below then
    if readsBackAs q above then
      some (if scaled - scaled.floor < mkRat 1 2 then below else above)
    else some below
  else if readsBackAs q above then some above
  else none

/-- The decimal with the fewest digits, up to seventeen, that reads back as the positive double
`q`, and the exact one should there be none. -/
def shortest (q : Rat) : Decimal :=
  ((List.range 17).findSome? (neighbour? q)).getD (ofDyadic q)

/-- The text of a double with the fewest digits that read back, always without an exponent. -/
def plain (x : Float) : List Char :=
  match Reading.ofFloat x with
  | .nan => ['N', 'a', 'N']
  | .infinite negative => signText negative ++ ['i', 'n', 'f']
  | .finite negative magnitude =>
    signText negative ++ if magnitude = 0 then ['0'] else (shortest magnitude).positional

def plainText (x : Float) : String :=
  String.ofList (plain x)

end FourFunction.Decimal
