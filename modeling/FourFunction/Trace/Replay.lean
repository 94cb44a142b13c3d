import FourFunction.Event
import FourFunction.Text.Slice

/-! A trace replayed with a stack on which lie the lexemes that were read and not given back. The
entry on top is the last of the list. -/

namespace FourFunction

open Text

/-- The byte at which the entry on top of a stack ends. An empty stack stands for the start of the
source. -/
def stackStop (stack : List Placed) : Nat :=
  (stack.getLast?.map Placed.stop).getD 0

namespace Event

/-- The stack after an event. A lexeme is put on it, and if the scanner goes back, one is taken off;
this fails if there is none. -/
def replay? (stack : List Placed) : Event → Option (List Placed)
  | matched placed => some (stack ++ [placed])
  | pushedBack origin target =>
    if target < origin then if stack = [] then none else some stack.dropLast
    else some stack
  | _ => some stack

/-- What an event says of the scanner agrees with the source and with the stacks before and after
the event. -/
def Agrees (source : String) (before after : List Placed) : Event → Prop
  | matched placed =>
    ∃ rest, suffix? placed.start source.toList = some (placed.lexeme.text ++ rest)
  | unmatched cursor =>
    cursor.offset = stackStop before ∧ suffix? cursor.offset source.toList = some cursor.rest
  | pushedBack origin target => origin = stackStop before ∧ target = stackStop after
  | _ => True

end Event

def replay? (stack : List Placed) (events : List Event) : Option (List Placed) :=
  events.foldlM Event.replay? stack

end FourFunction
