import FourFunction.Event
import FourFunction.Expr.Rendering

/-! What an event of the debug trace says, field by field. -/

namespace FourFunction

inductive Field where
  | text (s : String)
  | offset (n : Nat)
  | number (value : Float)

def Field.describe : Field → String
  | text s => s.quote
  | offset n => n.repr
  | number value => Decimal.plainText value

namespace Event

/-- The named fields of an event, in the order in which they are traced. -/
def fields : Event → List (String × Field)
  | matched placed =>
    [("lexeme", .text (String.ofList placed.lexeme.text)), ("offset", .offset placed.start)]
  | unmatched cursor =>
    [("offset", .offset cursor.offset), ("rest", .text (String.ofList cursor.rest))]
  | pushedBack origin target => [("from", .offset origin), ("to", .offset target)]
  | number value => [("value", .number value)]
  | group e => [("expr", .text e.text)]
  | chain _ left => [("left", .text left.text)]
  | parsed e => [("expr", .text e.text)]
  | evaluated source value => [("source", .text source), ("value", .number value)]

def line (e : Event) : String :=
  e.fields.foldl (fun written (name, field) => written ++ " " ++ name ++ "=" ++ field.describe)
    e.message

end Event

end FourFunction
