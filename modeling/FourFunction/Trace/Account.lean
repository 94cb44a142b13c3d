import FourFunction.Grammar.Derivation
import FourFunction.Grammar.Nesting
import FourFunction.Trace
import FourFunction.Trace.Replay

/-! What the trace of an accepted source tells of its lexemes: the events that each of them gives
rise to, and the tree of every group, term and expression that ends with it. -/

namespace FourFunction

/-! ## Lexemes of each kind -/

namespace Lexeme

def isNumeral : Lexeme → Bool
  | numeral _ => true
  | _ => false

def isSum : Lexeme → Bool
  | symbol (.operator .add) | symbol (.operator .sub) => true
  | _ => false

def isProduct : Lexeme → Bool
  | symbol (.operator .mul) | symbol (.operator .div) => true
  | _ => false

/-- The messages of the events to which a lexeme of an accepted source gives rise. The operator of a
sum ends a term, and a closing parenthesis a term and an expression; both are read and given back
there before they are read for good. -/
def share : Lexeme → List String
  | numeral _ => ["matched", "factor result (number)"]
  | symbol (.operator .mul) | symbol (.operator .div) => ["matched"]
  | symbol (.operator .add) | symbol (.operator .sub) =>
    ["matched", "push back", "term result", "matched"]
  | symbol .leftParen => ["matched"]
  | symbol .rightParen =>
    ["matched", "push back", "term result", "matched", "push back", "expression result", "matched",
      "factor result"]
  | unmatched _ => []

end Lexeme

/-- How many lexemes of each kind a source has. Of the parentheses the opening ones are counted. -/
structure Tally where
  numerals : Nat
  sums : Nat
  products : Nat
  groups : Nat
deriving DecidableEq

def Tally.ofLexemes (ls : List Lexeme) : Tally where
  numerals := ls.countP Lexeme.isNumeral
  sums := ls.countP Lexeme.isSum
  products := ls.countP Lexeme.isProduct
  groups := ls.count (.symbol .leftParen)

/-- The messages at the end of an accepted source, where a term and an expression end. -/
def lastShare : List String :=
  ["push back", "term result", "push back", "expression result", "parse result", "evaluated"]

/-- The number of events with a message. -/
def messageCount (message : String) (events : List Event) : Nat :=
  (events.map Event.message).count message

namespace Event

def number? : Event → Option Float
  | number value => some value
  | _ => none

/-- The category of which a rule has found a tree, and the tree. Numbers do not count. -/
def result? : Event → Option (Grammar.Category × Expr)
  | group e => some (.factor, e)
  | chain .product left => some (.term, left)
  | chain .sum left => some (.expression, left)
  | _ => none

/-- Whether an event is about a whole source and no part of it. -/
def ofWhole : Event → Bool
  | parsed _ | evaluated _ _ => true
  | _ => false

end Event

namespace Grammar

/-! ## Whole phrases -/

/-- The message of an event that shows the tree found by a rule. -/
def Category.resultMessage : Category → String
  | .factor => "factor result"
  | .term => "term result"
  | .expression => "expression result"

/-- The lexemes that may stand before a whole phrase, one that is not part of a longer phrase of its
category. -/
def Category.StartsAfter : Category → Lexeme → Prop
  | .expression, l => l = .symbol .leftParen
  | .term, l => l = .symbol .leftParen ∨ l.isSum
  | .factor, _ => True

/-- The lexemes that may stand after a whole phrase. -/
def Category.EndsBefore : Category → Lexeme → Prop
  | .expression, l => l = .symbol .rightParen
  | .term, l => l = .symbol .rightParen ∨ l.isSum
  | .factor, _ => True

/-- A factor that is not a number. -/
def Grouped (ls : List Lexeme) : Prop :=
  ∃ inner, ls = .symbol .leftParen :: inner ++ [.symbol .rightParen]

/-- The lexemes on the stack end with those of a whole phrase of the category, which derive the
tree. If it is a factor, it is a group. -/
def Completes (source : String) (stack : List Placed) (category : Category) (t : Expr) : Prop :=
  ∃ before span after, before ++ span = stack ∧ stack ++ after = lexemes source ∧
    Derives maxNesting category (span.map Placed.lexeme) t ∧
    (∀ p ∈ before.getLast?, category.StartsAfter p.lexeme) ∧
    (∀ p ∈ after.head?, category.EndsBefore p.lexeme) ∧
    (category = .factor → Grouped (span.map Placed.lexeme))

end Grammar

end FourFunction
