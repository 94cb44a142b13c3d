import FourFunction.Error
import FourFunction.Event
import FourFunction.Token

/-! The scanner reads a source token by token and can take one token back. It remembers no more of
the past than the place before the last token. -/

namespace FourFunction

inductive History where
  /-- No token has been read yet. -/
  | untouched
  /-- The last token was read from here and may be given back. -/
  | returnable (before : Cursor)
  /-- The last token has been given back. -/
  | spent
deriving DecidableEq

structure Scanner where
  cursor : Cursor
  history : History
deriving DecidableEq

namespace Scanner

def ofSource (source : String) : Scanner :=
  ⟨Cursor.first source.toList, .untouched⟩

/-- Reads the next token. At the end of the source and before an unmatched character the scanner
stays where it is. -/
def next (s : Scanner) : Token × Scanner :=
  match s.cursor.read? with
  | none => (.endOfInput, ⟨s.cursor, .returnable s.cursor⟩)
  | some (placed, after) =>
    match placed.lexeme.token? with
    | none => (.endOfInput, ⟨s.cursor, .returnable s.cursor⟩)
    | some token => (token, ⟨after, .returnable s.cursor⟩)

/-- The trace of reading the next token. The end of the source leaves none. -/
def nextEvents (s : Scanner) : Array Event :=
  match s.cursor.read? with
  | none => #[]
  | some (⟨.unmatched _, _⟩, _) => #[.unmatched s.cursor]
  | some (placed, _) => #[.matched placed]

def pushBack (s : Scanner) : Except ScanError Scanner :=
  match s.history with
  | .returnable before => .ok ⟨before, .spent⟩
  | .spent => .error (.doublePushBack s.cursor.offset)
  | .untouched => .error .nothingToPushBack

/-- The trace of giving the last token back. A refusal leaves none. -/
def pushBackEvents (s : Scanner) : Array Event :=
  match s.history with
  | .returnable before => #[.pushedBack s.cursor.offset before.offset]
  | _ => #[]

/-- The offset at which the last token starts, blanks not counted; after a token was given back,
where the next one starts. -/
def tokenStart (s : Scanner) : Nat :=
  match s.history with
  | .returnable before => before.skipBlanks.offset
  | _ => s.cursor.skipBlanks.offset

/-- The text not read yet, without the blanks before it. -/
def remainder (s : Scanner) : String :=
  String.ofList s.cursor.skipBlanks.rest

/-- The offset of the text not read yet, blanks skipped. -/
def remainderOffset (s : Scanner) : Nat :=
  s.cursor.skipBlanks.offset

/-- Whether only blanks are left. -/
def exhausted (s : Scanner) : Bool :=
  s.cursor.skipBlanks.rest.isEmpty

def unread (s : Scanner) : Nat :=
  s.cursor.rest.length

theorem next_of_matched {s : Scanner} {p : Placed} {mid : Cursor}
    (hr : s.cursor.read? = some (p, mid)) (hp : p.lexeme.isMatched) :
    s.next = (p.lexeme.token, ⟨mid, .returnable s.cursor⟩) := by
  simp [next, hr, Lexeme.token?_eq, hp]

theorem next_of_unmatched {s : Scanner}
    (h : ∀ p mid, s.cursor.read? = some (p, mid) → p.lexeme.isMatched = false) :
    s.next = (.endOfInput, ⟨s.cursor, .returnable s.cursor⟩) := by
  cases hr : s.cursor.read? with
  | none => simp [next, hr]
  | some found => simp [next, hr, Lexeme.token?_eq, h found.1 found.2 hr]

/-- The next token is that of a lexeme, and the scanner is moved behind it, or it is the end of
the input, and the scanner stays. -/
theorem next_cases (s : Scanner) :
    (∃ p mid, s.cursor.read? = some (p, mid) ∧ p.lexeme.isMatched ∧
      s.next = (p.lexeme.token, ⟨mid, .returnable s.cursor⟩)) ∨
    ((∀ p mid, s.cursor.read? = some (p, mid) → p.lexeme.isMatched = false) ∧
      s.next = (.endOfInput, ⟨s.cursor, .returnable s.cursor⟩)) := by
  cases hr : s.cursor.read? with
  | none => exact .inr ⟨by simp, next_of_unmatched (by simp [hr])⟩
  | some found =>
      cases hm : found.1.lexeme.isMatched with
      | true => exact .inl ⟨found.1, found.2, rfl, hm, next_of_matched hr hm⟩
      | false =>
          have hn : ∀ p mid, some found = some (p, mid) → p.lexeme.isMatched = false := by
            intro p mid hp
            rw [Option.some.inj hp] at hm
            exact hm
          exact .inr ⟨hn, next_of_unmatched (hr ▸ hn)⟩

theorem unread_next_le (s : Scanner) : s.next.2.unread ≤ s.unread := by
  rcases s.next_cases with ⟨p, mid, hr, -, hn⟩ | ⟨-, hn⟩
  · rw [hn]
    exact Nat.le_of_lt (Cursor.read?_length hr)
  · rw [hn]
    exact Nat.le_refl _

/-- A token other than the end of the input takes at least one character. -/
theorem unread_next_lt {s : Scanner} (h : s.next.1 ≠ .endOfInput) :
    s.next.2.unread < s.unread := by
  rcases s.next_cases with ⟨p, mid, hr, -, hn⟩ | ⟨-, hn⟩
  · rw [hn]
    exact Cursor.read?_length hr
  · simp [hn] at h

@[simp] theorem history_next (s : Scanner) : s.next.2.history = .returnable s.cursor := by
  rcases s.next_cases with ⟨p, mid, -, -, hn⟩ | ⟨-, hn⟩ <;> rw [hn]

/-- A token just read can be given back, and the scanner is then where it was before. -/
@[simp] theorem pushBack_next (s : Scanner) : s.next.2.pushBack = .ok ⟨s.cursor, .spent⟩ := by
  simp [pushBack]

end Scanner

end FourFunction
