import FourFunction.Lexeme
import FourFunction.Text.Blank
import FourFunction.Text.Bytes

/-! Places in a source, and the lexemes read from one place on. -/

namespace FourFunction

open Text

/-- A place in a source: the byte offset of the place and the text from it on. -/
structure Cursor where
  offset : Nat
  rest : List Char
deriving DecidableEq

/-- A lexeme with the byte offset at which it starts. -/
structure Placed where
  lexeme : Lexeme
  start : Nat
deriving DecidableEq

def Placed.stop (p : Placed) : Nat :=
  p.start + byteLength p.lexeme.text

namespace Cursor

def first (source : List Char) : Cursor :=
  ⟨0, source⟩

/-- The first place at or after a cursor that holds no blank. -/
def skipBlanks (c : Cursor) : Cursor :=
  ⟨c.offset + byteLength (c.rest.takeWhile isBlank), c.rest.dropWhile isBlank⟩

/-- The first lexeme from a cursor on, after any blanks, and the place just after it. -/
def read? (c : Cursor) : Option (Placed × Cursor) :=
  match Lexeme.read? c.skipBlanks.rest with
  | none => none
  | some (lexeme, rest) =>
    let placed : Placed := ⟨lexeme, c.skipBlanks.offset⟩
    some (placed, ⟨placed.stop, rest⟩)

theorem length_skipBlanks_le (c : Cursor) : c.skipBlanks.rest.length ≤ c.rest.length :=
  (List.dropWhile_sublist _).length_le

/-- A lexeme starts after the blanks and is the text in front of what is left. -/
theorem read?_eq_some {c mid : Cursor} {p : Placed} (h : c.read? = some (p, mid)) :
    p.start = c.skipBlanks.offset ∧ mid.offset = p.stop ∧
      Lexeme.read? c.skipBlanks.rest = some (p.lexeme, mid.rest) := by
  rw [read?] at h
  split at h
  · simp at h
  next lexeme rest hl =>
    simp only [Option.some.injEq, Prod.mk.injEq] at h
    obtain ⟨rfl, rfl⟩ := h
    exact ⟨rfl, rfl, hl⟩

theorem read?_length {c mid : Cursor} {p : Placed} (h : c.read? = some (p, mid)) :
    mid.rest.length < c.rest.length :=
  Nat.lt_of_lt_of_le (Lexeme.read?_length (read?_eq_some h).2.2) c.length_skipBlanks_le

/-- All lexemes from a cursor on, unmatched characters included. -/
def lexemes (c : Cursor) : List Placed :=
  match _h : c.read? with
  | none => []
  | some (placed, after) => placed :: lexemes after
termination_by c.rest.length
decreasing_by exact read?_length _h

end Cursor

def lexemes (source : String) : List Placed :=
  (Cursor.first source.toList).lexemes

end FourFunction
