import FourFunction.Error
import FourFunction.Proofs.Lexeme.Proper

/-! The messages of errors. The kinds begin with different words, and a number ends where the words
after it begin, so a message belongs to one error only, whatever texts it quotes. -/

namespace FourFunction

/-! ## Numbers in texts -/

namespace Text

theorem toDigits_injective : Function.Injective (Nat.toDigits 10) :=
  Function.LeftInverse.injective (g := (Nat.ofDigitChars 10 · 0))
    fun _ => Nat.ofDigitChars_ten_toDigits

theorem repr_injective : Function.Injective Nat.repr := by
  intro m n h
  refine toDigits_injective ?_
  rw [← Nat.toList_repr, ← Nat.toList_repr, h]

/-- A number is told from the text after it, which goes on with something else than a digit. -/
theorem eq_of_toDigits_append_cons_eq {m n : Nat} {c : Char} {xs ys : List Char}
    (hc : c.isDigit = false) (h : Nat.toDigits 10 m ++ c :: xs = Nat.toDigits 10 n ++ c :: ys) :
    m = n ∧ xs = ys := by
  have hdigits : ∀ k, ∀ d ∈ Nat.toDigits 10 k, d.isDigit :=
    fun _ _ hd => Nat.isDigit_of_mem_toDigits (by decide) (by decide) hd
  have hnumber : Nat.toDigits 10 m = Nat.toDigits 10 n :=
    calc
      Nat.toDigits 10 m = (Nat.toDigits 10 m ++ c :: xs).takeWhile Char.isDigit :=
        (takeWhile_append_cons (hdigits m) hc).symm
      _ = (Nat.toDigits 10 n ++ c :: ys).takeWhile Char.isDigit := by rw [h]
      _ = Nat.toDigits 10 n := takeWhile_append_cons (hdigits n) hc
  rw [hnumber] at h
  exact ⟨toDigits_injective hnumber, (List.cons.inj (List.append_cancel_left h)).2⟩

end Text

open Text

/-! ## Errors of the grammar -/

namespace SyntaxError

variable (found input : String) (limit offset : Nat) (e : SyntaxError)

theorem complaint_missingClosingParen :
    (missingClosingParen offset).complaint = "missing closing parenthesis ')'." := rfl

theorem complaint_expectedNumberOrParen : (expectedNumberOrParen found offset).complaint =
    "expected number or '(' but found " ++ found ++ "." := rfl

theorem complaint_nestingTooDeep : (nestingTooDeep limit offset).complaint =
    "parentheses nested deeper than " ++ limit.repr ++ " levels." := rfl

theorem complaint_unexpectedTrailingInput : (unexpectedTrailingInput input offset).complaint =
    "unexpected input after expression: " ++ input := rfl

theorem message_eq :
    e.message = "Syntax error at offset " ++ e.offset.repr ++ ": " ++ e.complaint := rfl

/-- The first letter of the complaint about an error. -/
def letter : SyntaxError → Char
  | missingClosingParen _ => 'm'
  | expectedNumberOrParen _ _ => 'e'
  | nestingTooDeep _ _ => 'p'
  | unexpectedTrailingInput _ _ => 'u'

theorem head?_complaint : e.complaint.toList.head? = some e.letter := by
  cases e with
  | missingClosingParen offset => simp [complaint_missingClosingParen, letter]
  | expectedNumberOrParen found offset => simp [complaint_expectedNumberOrParen, letter]
  | nestingTooDeep limit offset => simp [complaint_nestingTooDeep, letter]
  | unexpectedTrailingInput input offset => simp [complaint_unexpectedTrailingInput, letter]

variable {e} {e' : SyntaxError}

/-- The place and the complaint make the whole error. -/
theorem eq_of_complaint_eq (hoffset : e.offset = e'.offset) (h : e.complaint = e'.complaint) :
    e = e' := by
  have hletter : e.letter = e'.letter :=
    Option.some.inj (by rw [← head?_complaint, ← head?_complaint, h])
  -- Complaints of two kinds begin with different letters.
  cases e <;> cases e' <;> simp only [letter, Char.reduceEq] at hletter
  case missingClosingParen => exact congrArg missingClosingParen hoffset
  case expectedNumberOrParen found offset found' offset' =>
    rw [complaint_expectedNumberOrParen, complaint_expectedNumberOrParen, String.append_left_inj,
      String.append_right_inj] at h
    exact congrArg₂ expectedNumberOrParen h hoffset
  case nestingTooDeep limit offset limit' offset' =>
    rw [complaint_nestingTooDeep, complaint_nestingTooDeep, String.append_left_inj,
      String.append_right_inj] at h
    exact congrArg₂ nestingTooDeep (repr_injective h) hoffset
  case unexpectedTrailingInput input offset input' offset' =>
    rw [complaint_unexpectedTrailingInput, complaint_unexpectedTrailingInput,
      String.append_right_inj] at h
    exact congrArg₂ unexpectedTrailingInput h hoffset

theorem toList_message (e : SyntaxError) : e.message.toList = "Syntax error at offset ".toList ++
    (Nat.toDigits 10 e.offset ++ ':' :: ' ' :: e.complaint.toList) := by
  rw [message_eq]
  simp

theorem message_injective : Function.Injective message := by
  intro e e' h
  have hlist := congrArg String.toList h
  rw [toList_message, toList_message] at hlist
  obtain ⟨hoffset, hrest⟩ :=
    eq_of_toDigits_append_cons_eq (by decide) (List.append_cancel_left hlist)
  exact eq_of_complaint_eq hoffset (String.toList_inj.mp (List.cons.inj hrest).2)

end SyntaxError

/-! ## Errors of both families -/

namespace ScanError

theorem message_nothingToPushBack : message nothingToPushBack =
    "Scan error: no token has been read, nothing to push back." := rfl

theorem message_doublePushBack (offset : Nat) : message (doublePushBack offset) =
    "Scan error at offset " ++ offset.repr ++ ": only one token can be pushed back." := rfl

theorem message_nothingToPushBack_ne (offset : Nat) :
    message nothingToPushBack ≠ message (doublePushBack offset) := by
  intro h
  have hlist := congrArg String.toList h
  simp [message_nothingToPushBack, message_doublePushBack] at hlist

theorem message_injective : Function.Injective message := by
  intro e e' h
  cases e with
  | nothingToPushBack =>
      cases e' with
      | nothingToPushBack => rfl
      | doublePushBack offset' => exact absurd h (message_nothingToPushBack_ne offset')
  | doublePushBack offset =>
      cases e' with
      | nothingToPushBack => exact absurd h.symm (message_nothingToPushBack_ne offset)
      | doublePushBack offset' =>
          rw [message_doublePushBack, message_doublePushBack, String.append_left_inj,
            String.append_right_inj] at h
          exact congrArg doublePushBack (repr_injective h)

theorem message_ne_grammar (e : ScanError) (e' : SyntaxError) : e.message ≠ e'.message := by
  intro h
  have hlist := congrArg String.toList h
  rw [SyntaxError.toList_message] at hlist
  cases e with
  | nothingToPushBack => simp [message_nothingToPushBack] at hlist
  | doublePushBack offset => simp [message_doublePushBack] at hlist

end ScanError

/-- Two errors do not have the same message. -/
theorem ParseError.message_inj {e e' : ParseError} : e.message = e'.message ↔ e = e' := by
  refine ⟨fun h => ?_, congrArg message⟩
  cases e with
  | scan cause =>
      cases e' with
      | scan cause' => exact congrArg scan (ScanError.message_injective h)
      | grammar cause' => exact absurd h (cause.message_ne_grammar cause')
  | grammar cause =>
      cases e' with
      | scan cause' => exact absurd h.symm (cause'.message_ne_grammar cause)
      | grammar cause' => exact congrArg grammar (SyntaxError.message_injective h)

end FourFunction
