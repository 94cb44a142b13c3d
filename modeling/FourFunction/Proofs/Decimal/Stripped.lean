import FourFunction.Proofs.Decimal.General
import FourFunction.Proofs.Decimal.Plain
import FourFunction.Proofs.Numeral

/-! What the removal of zeros does to the text of a decimal with a sign. Nothing but the end of the
fraction goes, the number stays, and numbers with the same digits before the point are left with the
same text only if they are equal. -/

namespace FourFunction

open Text

/-! ## Texts of decimals with a sign -/

namespace Pattern

open RegularExpression (char)

/-- `-?[0-9]+(\.[0-9]*)?` -/
def signedDecimal : RegularExpression Char :=
  optional (char '-') * (someDigits * optional (char '.' * digits))

theorem mem_signedDecimal {w : List Char} : w ∈ signedDecimal.matches' ↔
    ∃ negative, ∃ n : Numeral, n.Proper ∧ n.whole ≠ [] ∧
      Decimal.signText negative ++ n.text = w := by
  rw [signedDecimal, RegularExpression.matches'_mul, Language.mem_mul]
  constructor
  · rintro ⟨first, hfirst, rest, hrest, rfl⟩
    obtain ⟨n, hn, hwhole, rfl⟩ := mem_wholeNumeral.mp hrest
    rcases mem_optional.mp hfirst with rfl | hminus
    · exact ⟨false, n, hn, hwhole, rfl⟩
    · obtain rfl : first = ['-'] := hminus
      exact ⟨true, n, hn, hwhole, rfl⟩
  · rintro ⟨negative, n, hn, hwhole, rfl⟩
    refine ⟨_, mem_optional.mpr ?_, _, mem_wholeNumeral.mpr ⟨n, hn, hwhole, rfl⟩, rfl⟩
    cases negative
    · exact .inl rfl
    · exact .inr rfl

end Pattern

namespace Numeral

/-- Where no zeros stand at the end of a fraction, the last character is a digit, and not zero if
there is a point. -/
theorem Trimmed.getLast?_text {n : Numeral} (h : n.Trimmed) (hn : n.Proper)
    (hwhole : n.whole ≠ []) :
    ∃ last, n.text.getLast? = some last ∧ last.isDigit ∧ ('.' ∈ n.text → last ≠ '0') := by
  obtain ⟨whole, fraction⟩ := n
  cases fraction with
  | none =>
      obtain ⟨init, last, rfl⟩ := (List.eq_nil_or_concat' whole).resolve_left hwhole
      refine ⟨last, List.getLast?_concat, hn.1 last (by simp), fun hpoint => ?_⟩
      exact absurd rfl (hn.point_mem_text_iff.mp hpoint)
  | some digits =>
      obtain ⟨hdigits, init, last, rfl, hlast⟩ := h digits rfl
      refine ⟨last, ?_, hdigits last (by simp), fun _ => hlast⟩
      rw [text, ← List.cons_append, ← List.append_assoc, List.getLast?_concat]

end Numeral

namespace Decimal

/-- The number that a text denotes, the sum of its digits with the sign before them. -/
def signedSum (cs : List Char) : Rat :=
  if (readSign cs).1 then -decimalSum (readSign cs).2 else decimalSum (readSign cs).2

variable {negative negative' : Bool} {n m : Numeral}

theorem readSign_signed (hn : n.Proper) :
    readSign (signText negative ++ n.text) = (negative, n.text) := by
  cases negative with
  | false => exact readSign_numeral hn
  | true => rfl

theorem signedSum_signed (hn : n.Proper) :
    signedSum (signText negative ++ n.text) = if negative then -n.denotes else n.denotes := by
  rw [signedSum, readSign_signed hn, hn.decimalSum_text]

theorem takeWhile_signed (hn : n.Proper) :
    (signText negative ++ n.text).takeWhile (· ≠ '.') = signText negative ++ n.whole := by
  have hsign : ∀ c ∈ signText negative, decide (c ≠ '.') = true := by
    cases negative <;> simp [signText]
  rw [List.takeWhile_append_of_pos hsign, hn.takeWhile_text]

theorem stripTrailingZeros_numeral (hn : n.Proper) (hwhole : n.whole ≠ []) :
    stripTrailingZeros (signText negative ++ n.text) = signText negative ++ n.stripped.text := by
  rw [stripTrailingZeros_signed, Numeral.text_stripped hn hwhole]

/-- Sign and digits before the point are known from the text of both. -/
theorem eq_of_signText_append_whole_eq (hn : n.Proper) (hm : m.Proper) (hnwhole : n.whole ≠ [])
    (hmwhole : m.whole ≠ []) (h : signText negative ++ n.whole = signText negative' ++ m.whole) :
    negative = negative' ∧ n.whole = m.whole := by
  have hproper : ∀ {k : Numeral}, k.Proper → k.whole ≠ [] → Numeral.Proper ⟨k.whole, none⟩ :=
    fun hk hkwhole => ⟨hk.1, by simp [Numeral.fractionDigits], .inl hkwhole⟩
  obtain ⟨hsign, hsame⟩ :=
    eq_of_signText_append_eq (hproper hn hnwhole) (hproper hm hmwhole) h
  exact ⟨hsign, (Numeral.mk.inj hsame).1⟩

theorem isPrefix_stripTrailingZeros (cs : List Char) : stripTrailingZeros cs <+: cs := by
  rw [stripTrailingZeros]
  split
  · exact (isPrefix_dropTrailing _ _).trans (isPrefix_dropTrailing _ _)
  · exact List.prefix_rfl

theorem signedSum_stripTrailingZeros (hn : n.Proper) (hwhole : n.whole ≠ []) :
    signedSum (stripTrailingZeros (signText negative ++ n.text)) =
      signedSum (signText negative ++ n.text) := by
  rw [stripTrailingZeros_numeral hn hwhole, signedSum_signed (hn.stripped_proper hwhole),
    signedSum_signed hn, n.denotes_stripped]

/-- What is left at the end of a text is a digit, and not zero if there is a point. -/
theorem getLast?_stripTrailingZeros (negative : Bool) (hn : n.Proper) (hwhole : n.whole ≠ []) :
    ∃ last, (stripTrailingZeros (signText negative ++ n.text)).getLast? = some last ∧ last.isDigit ∧
      ('.' ∈ stripTrailingZeros (signText negative ++ n.text) → last ≠ '0') := by
  obtain ⟨last, hlast, hdigit, hzero⟩ := hn.stripped_trimmed.getLast?_text
    (hn.stripped_proper hwhole) (n.whole_stripped ▸ hwhole)
  rw [stripTrailingZeros_numeral hn hwhole]
  refine ⟨last, by rw [List.getLast?_append, hlast]; rfl, hdigit, fun hpoint => hzero ?_⟩
  have hsign : '.' ∉ signText negative := by cases negative <;> decide
  exact (List.mem_append.mp hpoint).resolve_left hsign

/-- Texts that begin alike up to the point are left with one text if they denote one number. -/
theorem stripTrailingZeros_eq_of_signedSum_eq (hn : n.Proper) (hm : m.Proper)
    (hnwhole : n.whole ≠ []) (hwhole : n.whole = m.whole)
    (h : signedSum (signText negative ++ n.text) = signedSum (signText negative ++ m.text)) :
    stripTrailingZeros (signText negative ++ n.text) =
      stripTrailingZeros (signText negative ++ m.text) := by
  have hdenotes : n.denotes = m.denotes := by
    rw [signedSum_signed hn, signedSum_signed hm] at h
    cases negative with
    | false => exact h
    | true => exact neg_inj.mp h
  have hsame : n.stripped = m.stripped := by
    refine hn.stripped_trimmed.eq_of_denotes_eq hm.stripped_trimmed ?_ ?_
    · rw [n.whole_stripped, m.whole_stripped, hwhole]
    · rw [n.denotes_stripped, m.denotes_stripped, hdenotes]
  rw [stripTrailingZeros_numeral hn hnwhole, stripTrailingZeros_numeral hm (hwhole ▸ hnwhole),
    hsame]

/-! ## Results -/

/-- What is left of the text of a decimal. Only characters at the end are gone, and the text is still
that of a decimal and denotes the same number with the same sign. It has neither a point at its end nor
a zero at the end of a fraction, and the digits before the point are unchanged. Nothing is left to
remove. Texts with one sign and the same digits before the point are left with one text exactly if they
denote one number. -/
structure StripsZeros (cs : List Char) : Prop where
  front : stripTrailingZeros cs <+: cs
  decimal : stripTrailingZeros cs ∈ Pattern.signedDecimal.matches'
  sign : (readSign (stripTrailingZeros cs)).1 = (readSign cs).1
  value : signedSum (stripTrailingZeros cs) = signedSum cs
  noPoint : (stripTrailingZeros cs).getLast? ≠ some '.'
  noZero : '.' ∈ stripTrailingZeros cs → (stripTrailingZeros cs).getLast? ≠ some '0'
  whole : (stripTrailingZeros cs).takeWhile (· ≠ '.') = cs.takeWhile (· ≠ '.')
  again : stripTrailingZeros (stripTrailingZeros cs) = stripTrailingZeros cs
  same : ∀ ds ∈ Pattern.signedDecimal.matches',
    ds.takeWhile (· ≠ '.') = cs.takeWhile (· ≠ '.') →
    (stripTrailingZeros ds = stripTrailingZeros cs ↔ signedSum ds = signedSum cs)

/-- Zeros at the end of a fraction are removed from the text of every decimal, and nothing else. -/
theorem stripsZeros {cs : List Char} (h : cs ∈ Pattern.signedDecimal.matches') :
    StripsZeros cs := by
  obtain ⟨negative, n, hn, hwhole, rfl⟩ := Pattern.mem_signedDecimal.mp h
  have hstripped : stripTrailingZeros (signText negative ++ n.text) =
      signText negative ++ n.stripped.text := stripTrailingZeros_numeral hn hwhole
  have hproper := hn.stripped_proper hwhole
  have hkept : n.stripped.whole ≠ [] := n.whole_stripped ▸ hwhole
  obtain ⟨last, hlast, hdigit, hzero⟩ := getLast?_stripTrailingZeros negative hn hwhole
  exact {
    front := isPrefix_stripTrailingZeros _
    decimal := Pattern.mem_signedDecimal.mpr ⟨negative, n.stripped, hproper, hkept, hstripped.symm⟩
    sign := by rw [hstripped, readSign_signed hproper, readSign_signed hn]
    value := signedSum_stripTrailingZeros hn hwhole
    noPoint := by
      rw [hlast, ne_eq, Option.some.injEq]
      exact Numeral.ne_point_of_isDigit hdigit
    noZero := by
      intro hpoint
      rw [hlast, ne_eq, Option.some.injEq]
      exact hzero hpoint
    whole := by rw [hstripped, takeWhile_signed hproper, takeWhile_signed hn, n.whole_stripped]
    again := by
      rw [hstripped, stripTrailingZeros_numeral hproper hkept,
        hn.stripped_trimmed.stripped_eq hproper]
    same := by
      intro ds hds hbegin
      obtain ⟨negative', m, hm, hmwhole, rfl⟩ := Pattern.mem_signedDecimal.mp hds
      rw [takeWhile_signed hm, takeWhile_signed hn] at hbegin
      obtain ⟨rfl, hsame⟩ := eq_of_signText_append_whole_eq hm hn hmwhole hwhole hbegin
      constructor
      · intro htext
        rw [← signedSum_stripTrailingZeros hm hmwhole, htext,
          signedSum_stripTrailingZeros hn hwhole]
      · exact stripTrailingZeros_eq_of_signedSum_eq hm hn hmwhole hsame }

/-- The zeros of a fraction go with the point, and those of the whole number before it stay. -/
theorem stripsZeros_hundred : "-100.000".toList ∈ Pattern.signedDecimal.matches' ∧
    StripsZeros "-100.000".toList ∧ stripTrailingZeros "-100.000".toList = "-100".toList := by
  have h : "-100.000".toList ∈ Pattern.signedDecimal.matches' :=
    Pattern.mem_signedDecimal.mpr ⟨true, .ofUnits 3 100000, Numeral.ofUnits_proper 3 100000,
      Numeral.whole_ofUnits_ne_nil 3 100000, by decide +kernel⟩
  exact ⟨h, stripsZeros h, by decide⟩

end Decimal

end FourFunction
