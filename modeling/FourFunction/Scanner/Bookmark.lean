import FourFunction.Scanner.Call

/-! A scanner seen as an index into the lexemes of its source, which are all known from one pass
over the text. The lexemes are those before the first unmatched character. -/

namespace FourFunction

def matchedLexemes (source : String) : List Placed :=
  (lexemes source).takeWhile fun placed => placed.lexeme.isMatched

inductive Slot where
  | untouched
  | returnable (index : Nat)
  | spent
deriving DecidableEq

/-- The number of lexemes read, and the number before the last read. -/
structure Bookmark where
  index : Nat
  slot : Slot
deriving DecidableEq

namespace Bookmark

def initial : Bookmark :=
  ⟨0, .untouched⟩

/-- The offset at which the first `index` lexemes end. -/
def offset (ls : List Placed) (index : Nat) : Nat :=
  ((ls.take index).getLast?.map Placed.stop).getD 0

/-- The next lexeme as a token, or the end of the input after the last. -/
def next (ls : List Placed) (b : Bookmark) : Token × Bookmark :=
  match ls[b.index]? with
  | some placed => (placed.lexeme.token, ⟨b.index + 1, .returnable b.index⟩)
  | none => (.endOfInput, ⟨b.index, .returnable b.index⟩)

def pushBack (ls : List Placed) (b : Bookmark) : Except ScanError Bookmark :=
  match b.slot with
  | .returnable index => .ok ⟨index, .spent⟩
  | .spent => .error (.doublePushBack (offset ls b.index))
  | .untouched => .error .nothingToPushBack

def perform (ls : List Placed) (b : Bookmark) : Call → Answer × Bookmark
  | .next => (.token (b.next ls).1, (b.next ls).2)
  | .pushBack =>
    match b.pushBack ls with
    | .ok back => (.returned, back)
    | .error cause => (.refused cause, b)

/-- The place of a source after its first `index` lexemes. -/
def place (source : String) (index : Nat) : Cursor :=
  let start := offset (matchedLexemes source) index
  ⟨start, Text.dropBytes start source.toList⟩

def scanner (source : String) (b : Bookmark) : Scanner where
  cursor := place source b.index
  history :=
    match b.slot with
    | .untouched => .untouched
    | .returnable index => .returnable (place source index)
    | .spent => .spent

end Bookmark

end FourFunction
