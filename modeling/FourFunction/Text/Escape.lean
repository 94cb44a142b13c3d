/-! Texts made safe to show on a terminal. -/

namespace FourFunction.Text

/-- The characters among the first 128 that can start or shape a terminal sequence: bell,
backspace, form feed, escape and delete. -/
def isTerminalControl (c : Char) : Bool :=
  c == '\x07' || c == '\x08' || c == '\x0c' || c == '\x1b' || c == '\x7f'

/-- The control characters from U+0080 to U+009F, which some terminals take for sequences. -/
def isUpperControl (c : Char) : Bool :=
  0x80 ≤ c.toNat && c.toNat ≤ 0x9f

/-- A character as it is shown: controls by their code point in two hexadecimal digits, and all
others, a backslash too, as they are. -/
def escapeChar (c : Char) : List Char :=
  let code := List.leftpad 2 '0' (Nat.toDigits 16 c.toNat)
  if isTerminalControl c then '\\' :: 'x' :: code
  else if isUpperControl c then '\\' :: 'u' :: '\x7b' :: code ++ ['\x7d']
  else [c]

def escapeControls (text : String) : String :=
  String.ofList (text.toList.flatMap escapeChar)

end FourFunction.Text
