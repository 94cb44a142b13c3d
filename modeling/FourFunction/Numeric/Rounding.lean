/-! Rounding of a rational to the nearest integer. -/

namespace FourFunction.Numeric

/-- The integer nearest to `q`; a half goes to the even neighbour. -/
def nearestEven (q : Rat) : Int :=
  let below := q.floor
  let excess := q - below
  if excess < mkRat 1 2 then below
  else if mkRat 1 2 < excess then below + 1
  else if below % 2 = 0 then below
  else below + 1

end FourFunction.Numeric
