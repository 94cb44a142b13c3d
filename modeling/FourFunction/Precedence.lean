import FourFunction.Lexeme

/-! Evaluation by operator precedence: lexemes are taken from left to right, values and pending
operators each go on a stack, and no tree is built. Values may be of any type. -/

namespace FourFunction.Precedence

/-- An operator that waits for its right operand, or a group that waits for its end. -/
inductive Pending where
  | operator (op : Operator)
  | group
deriving DecidableEq

structure Stacks (α : Type) where
  values : List α
  pending : List Pending

/-- Whether an operator that waits is applied before the next one is put on the stack: all are but
a sum in front of a product. -/
def yields (waiting next : Operator) : Bool :=
  decide ((waiting = .mul ∨ waiting = .div) ∨ (next = .add ∨ next = .sub))

variable {α : Type} (literal : Float → α) (meaning : Operator → α → α → α)

/-- Applies operators from the top of the stack down to the innermost group while `due` holds of
them. The left operand is the one put on the stack first. -/
def reduce (due : Operator → Bool) : List α → List Pending → Stacks α
  | right :: left :: values, .operator op :: pending =>
    if due op then reduce due (meaning op left right :: values) pending
    else ⟨right :: left :: values, .operator op :: pending⟩
  | values, pending => ⟨values, pending⟩

def take (s : Stacks α) : Lexeme → Stacks α
  | .numeral n => { s with values := literal n.value :: s.values }
  | .symbol (.operator op) =>
    let reduced := reduce meaning (yields · op) s.values s.pending
    { reduced with pending := .operator op :: reduced.pending }
  | .symbol .leftParen => { s with pending := .group :: s.pending }
  | .symbol .rightParen =>
    let reduced := reduce meaning (fun _ => true) s.values s.pending
    { reduced with pending := reduced.pending.tail }
  | .unmatched _ => s

/-- The stacks when all lexemes are taken and all operators applied. -/
def run (ls : List Lexeme) : Stacks α :=
  let s := ls.foldl (take literal meaning) ⟨[], []⟩
  reduce meaning (fun _ => true) s.values s.pending

def evaluate (ls : List Lexeme) : Option α :=
  (run literal meaning ls).values.head?

end FourFunction.Precedence
