import FourFunction.Text.Trailing

/-! Unicode white space, which files lose at their end. It is a larger class than the blanks
between lexemes. -/

namespace FourFunction.Text

/-- The ranges of code points with the Unicode property White_Space, both ends included. -/
def whiteSpaceRanges : List (Nat × Nat) :=
  [(0x9, 0xd), (0x20, 0x20), (0x85, 0x85), (0xa0, 0xa0), (0x1680, 0x1680), (0x2000, 0x200a),
    (0x2028, 0x2029), (0x202f, 0x202f), (0x205f, 0x205f), (0x3000, 0x3000)]

def isWhiteSpace (c : Char) : Bool :=
  whiteSpaceRanges.any fun (first, last) => first ≤ c.toNat && c.toNat ≤ last

/-- The same characters one by one. -/
def whiteSpace : List Char :=
  ['\t', '\n', '\x0b', '\x0c', '\r', ' ', '\u0085', '\u00a0', '\u1680', '\u2000', '\u2001',
    '\u2002', '\u2003', '\u2004', '\u2005', '\u2006', '\u2007', '\u2008', '\u2009', '\u200a',
    '\u2028', '\u2029', '\u202f', '\u205f', '\u3000']

def trimEnd (text : String) : String :=
  String.ofList (dropTrailing isWhiteSpace text.toList)

end FourFunction.Text
