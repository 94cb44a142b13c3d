/-! Powers with an exponent of either sign, as exact rationals. -/

namespace FourFunction.Numeric

def power (base : Nat) : Int → Rat
  | .ofNat k => mkRat (Nat.pow base k) 1
  | .negSucc k => mkRat 1 (Nat.pow base (k + 1))

end FourFunction.Numeric
