import FourFunction.Proofs.Scanner.Next

/-! The same text at another place of a source. A scanner that stands further on, with the same text
left, reads the same lexemes further on. What was done to it before makes no difference. -/

namespace FourFunction

/-! ## Places further on -/

def Cursor.shift (k : Nat) (c : Cursor) : Cursor :=
  ⟨c.offset + k, c.rest⟩

def Placed.shift (k : Nat) (p : Placed) : Placed :=
  ⟨p.lexeme, p.start + k⟩

def History.shift (k : Nat) : History → History
  | untouched => untouched
  | returnable before => returnable (before.shift k)
  | spent => spent

def Scanner.shift (k : Nat) (s : Scanner) : Scanner :=
  ⟨s.cursor.shift k, s.history.shift k⟩

def ScanError.shift (k : Nat) : ScanError → ScanError
  | nothingToPushBack => nothingToPushBack
  | doublePushBack offset => doublePushBack (offset + k)

def SyntaxError.shift (k : Nat) : SyntaxError → SyntaxError
  | missingClosingParen offset => missingClosingParen (offset + k)
  | expectedNumberOrParen found offset => expectedNumberOrParen found (offset + k)
  | nestingTooDeep limit offset => nestingTooDeep limit (offset + k)
  | unexpectedTrailingInput input offset => unexpectedTrailingInput input (offset + k)

/-- The same error further on. Only the offset is another one. -/
def ParseError.shift (k : Nat) : ParseError → ParseError
  | scan cause => scan (cause.shift k)
  | grammar cause => grammar (cause.shift k)

/-- The same event further on. -/
def Event.shift (k : Nat) : Event → Event
  | matched placed => matched (placed.shift k)
  | unmatched cursor => unmatched (cursor.shift k)
  | pushedBack origin target => pushedBack (origin + k) (target + k)
  | number value => number value
  | group e => group e
  | chain level left => chain level left
  | parsed e => parsed e
  | evaluated source value => evaluated source value

/-! ## Lexemes -/

namespace Cursor

theorem skipBlanks_shift (k : Nat) (c : Cursor) :
    (c.shift k).skipBlanks = c.skipBlanks.shift k := by
  simp only [skipBlanks, shift, mk.injEq, and_true]
  omega

theorem read?_shift (k : Nat) (c : Cursor) :
    (c.shift k).read? = c.read?.map fun found => (found.1.shift k, found.2.shift k) := by
  rw [read?, read?, skipBlanks_shift]
  simp only [shift]
  cases Lexeme.read? c.skipBlanks.rest with
  | none => rfl
  | some found =>
      simp only [Option.map_some, Placed.shift, Placed.stop, Option.some.injEq, Prod.mk.injEq,
        mk.injEq, and_true, true_and]
      omega

end Cursor

/-! ## Tokens -/

namespace Scanner

variable {k : Nat} {s t : Scanner}

theorem next_shift (h : s.cursor = t.cursor.shift k) : s.next = (t.next.1, t.next.2.shift k) := by
  simp only [next, h, Cursor.read?_shift]
  cases t.cursor.read? with
  | none => rfl
  | some found =>
      simp only [Option.map_some, Placed.shift]
      cases found.1.lexeme.token? <;> rfl

theorem nextEvents_shift (h : s.cursor = t.cursor.shift k) :
    s.nextEvents = t.nextEvents.map (Event.shift k) := by
  simp only [nextEvents, h, Cursor.read?_shift]
  cases t.cursor.read? with
  | none => simp
  | some found =>
      obtain ⟨⟨l, start⟩, after⟩ := found
      cases l <;> simp [Placed.shift, Event.shift]

theorem pushBackEvents_shift (k : Nat) (s : Scanner) :
    (s.shift k).pushBackEvents = s.pushBackEvents.map (Event.shift k) := by
  obtain ⟨cursor, history⟩ := s
  cases history <;> simp [pushBackEvents, shift, History.shift, Event.shift, Cursor.shift]

/-- A token given back leads to the same place further on, and is refused with the same error. -/
theorem pushBack_shift (k : Nat) (s : Scanner) :
    (s.shift k).pushBack = (s.pushBack.map (shift k)).mapError (ScanError.shift k) := by
  obtain ⟨cursor, history⟩ := s
  cases history <;> rfl

theorem tokenStart_shift (k : Nat) (s : Scanner) : (s.shift k).tokenStart = s.tokenStart + k := by
  obtain ⟨cursor, history⟩ := s
  cases history <;> exact congrArg Cursor.offset (Cursor.skipBlanks_shift k _)

theorem remainderOffset_shift (k : Nat) (s : Scanner) :
    (s.shift k).remainderOffset = s.remainderOffset + k :=
  congrArg Cursor.offset (Cursor.skipBlanks_shift k s.cursor)

theorem remainder_shift (k : Nat) (s : Scanner) : (s.shift k).remainder = s.remainder :=
  rfl

theorem exhausted_shift (k : Nat) (s : Scanner) : (s.shift k).exhausted = s.exhausted :=
  rfl

end Scanner

end FourFunction
