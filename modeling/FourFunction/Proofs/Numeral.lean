import FourFunction.Proofs.Decimal.Reparse
import FourFunction.Proofs.Lexeme.Pattern
import FourFunction.Proofs.Numeric.Order

/-! The values of numerals. A text that a pattern of numerals matches is parsed to one literal, the
double to which the sum of its digits is rounded, each digit counted at its decimal place. The way
in which a rational is written has no influence on its double. -/

namespace FourFunction

open Numeric Text

/-! ## Places -/

namespace Text

/-- The sum of digits, the first of them at the place `10 ^ k` and each of the others one place
below the one before it. -/
def placeSum : Int → List Char → Rat
  | _, [] => 0
  | k, c :: cs => (c.toNat - '0'.toNat : Nat) * 10 ^ k + placeSum (k - 1) cs

/-- The sum of the digits of a text. The ones stand before the point, and if there is none at the
end. -/
def decimalSum (cs : List Char) : Rat :=
  placeSum ((cs.takeWhile (· ≠ '.')).length - 1) (cs.filter (· ≠ '.'))

theorem placeSum_eq (k : Int) (cs : List Char) :
    placeSum k cs = Nat.ofDigitChars 10 cs 0 * 10 ^ (k + 1 - cs.length) := by
  induction cs generalizing k with
  | nil => simp [placeSum]
  | cons c cs ih =>
      have hplace : (10 : Rat) ^ k = 10 ^ cs.length * 10 ^ (k - cs.length) := by
        rw [← zpow_natCast, ← zpow_add₀ (by norm_num), add_sub_cancel]
      have hlast : k + 1 - ((c :: cs).length : Nat) = k - cs.length := by
        rw [List.length_cons]
        push_cast
        ring
      have hdigit : Nat.ofDigitChars 10 (c :: cs) 0 =
          10 ^ cs.length * (c.toNat - '0'.toNat) + Nat.ofDigitChars 10 cs 0 := by
        rw [Nat.ofDigitChars_cons, Nat.ofDigitChars_eq_ofDigitChars_zero, Nat.mul_zero,
          Nat.zero_add]
      rw [placeSum, ih, hdigit, hlast, sub_add_cancel, hplace]
      push_cast
      ring

end Text

namespace Numeral

theorem Proper.takeWhile_text {n : Numeral} (hn : n.Proper) :
    n.text.takeWhile (· ≠ '.') = n.whole := by
  obtain ⟨whole, fraction⟩ := n
  have hkept : ∀ c ∈ whole, decide (c ≠ '.') = true :=
    fun c hc => decide_eq_true (ne_point_of_isDigit (hn.1 c hc))
  cases fraction with
  | none => exact List.takeWhile_eq_self_iff.mpr hkept
  | some digits => exact takeWhile_append_cons hkept (by decide)

theorem Proper.filter_text {n : Numeral} (hn : n.Proper) :
    n.text.filter (· ≠ '.') = n.whole ++ n.fractionDigits := by
  obtain ⟨whole, fraction⟩ := n
  have hkept : ∀ c ∈ whole, decide (c ≠ '.') = true :=
    fun c hc => decide_eq_true (ne_point_of_isDigit (hn.1 c hc))
  cases fraction with
  | none =>
      rw [fractionDigits, Option.getD_none, List.append_nil]
      exact List.filter_eq_self.mpr hkept
  | some digits =>
      have hdigits : ∀ c ∈ digits, decide (c ≠ '.') = true :=
        fun c hc => decide_eq_true (ne_point_of_isDigit (hn.2.1 c hc))
      rw [text, List.filter_append, List.filter_cons_of_neg (by decide),
        List.filter_eq_self.mpr hkept, List.filter_eq_self.mpr hdigits]
      rfl

/-- A numeral denotes the sum of the digits in its text. -/
theorem Proper.decimalSum_text {n : Numeral} (hn : n.Proper) : decimalSum n.text = n.denotes := by
  have hplace : (n.whole.length : Int) - 1 + 1 - (n.whole ++ n.fractionDigits).length =
      -(n.fractionDigits.length : Int) := by
    rw [List.length_append]
    push_cast
    ring
  rw [decimalSum, hn.takeWhile_text, hn.filter_text, placeSum_eq, denotes_eq, hplace, zpow_neg,
    zpow_natCast, div_eq_mul_inv]

theorem denotes_nonneg (n : Numeral) : 0 ≤ n.denotes := by
  rw [denotes_eq]
  positivity

/-! ## Numerals for one rational -/

/-- A numeral with zeros in front. -/
def leadingZeros (k : Nat) (n : Numeral) : Numeral :=
  ⟨List.replicate k '0' ++ n.whole, n.fraction⟩

theorem text_leadingZeros (k : Nat) (n : Numeral) :
    (n.leadingZeros k).text = List.replicate k '0' ++ n.text := by
  obtain ⟨whole, fraction⟩ := n
  cases fraction with
  | none => rfl
  | some digits => exact List.append_assoc _ _ _

theorem denotes_leadingZeros (k : Nat) (n : Numeral) : (n.leadingZeros k).denotes = n.denotes := by
  simp [denotes_eq, leadingZeros, fractionDigits, Nat.ofDigitChars_append,
    Nat.ofDigitChars_replicate_zero]

theorem Proper.leadingZeros {n : Numeral} (hn : n.Proper) (k : Nat) :
    (n.leadingZeros k).Proper := by
  obtain ⟨hwhole, hfraction, hsome⟩ := hn
  refine ⟨?_, hfraction, hsome.imp_left (List.append_ne_nil_of_right_ne_nil _)⟩
  exact List.forall_mem_append.mpr ⟨fun _ => isDigit_of_mem_zeros, hwhole⟩

theorem Proper.append_zeros {whole fraction : List Char} (hn : Proper ⟨whole, some fraction⟩)
    (k : Nat) : Proper ⟨whole, some (fraction ++ List.replicate k '0')⟩ := by
  obtain ⟨hwhole, hfraction, hsome⟩ := hn
  refine ⟨hwhole, ?_, hsome.imp_right (List.append_ne_nil_of_left_ne_nil · _)⟩
  exact List.forall_mem_append.mpr ⟨hfraction, fun _ => isDigit_of_mem_zeros⟩

theorem Proper.point_mem_text_iff {n : Numeral} (hn : n.Proper) :
    '.' ∈ n.text ↔ n.fraction ≠ none := by
  have hcount := hn.count_point
  rw [← List.one_le_count_iff, hcount]
  split <;> simp_all

end Numeral

namespace Grammar

/-! ## Sources that are numerals -/

theorem exists_numeral_of_mem {source : String} (h : source.toList ∈ Pattern.numeral.matches') :
    ∃ n : Numeral, n.Proper ∧ source = String.ofList n.text ∧
      decimalSum source.toList = n.denotes := by
  obtain ⟨n, hn, htext⟩ := Pattern.mem_numeral.mp h
  exact ⟨n, hn, by rw [htext, String.ofList_toList], by rw [← htext, hn.decimalSum_text]⟩

/-- The literal of a numeral is the double to which the numeral is rounded. -/
theorem isNearest_value_iff (n : Numeral) (y : Float) : IsNearest n.denotes y ↔ y = n.value := by
  constructor
  · exact IsNearest.eq_nearestFloat n.denotes_nonneg
  · rintro rfl
    exact isNearest_nearestFloat n.denotes_nonneg

/-- How a numeral is written has no influence on its literal. -/
theorem parse_eq_of_denotes_eq {n m : Numeral} (hn : n.Proper) (hm : m.Proper)
    (h : n.denotes = m.denotes) : parse (String.ofList n.text) = parse (String.ofList m.text) := by
  rw [parse_numeral hn, parse_numeral hm, Numeral.value, Numeral.value, h]

theorem parse_leadingZeros {n : Numeral} (hn : n.Proper) (k : Nat) :
    parse (String.ofList (List.replicate k '0' ++ n.text)) = parse (String.ofList n.text) := by
  rw [← n.text_leadingZeros]
  exact parse_eq_of_denotes_eq (hn.leadingZeros k) hn (n.denotes_leadingZeros k)

theorem parse_trailingZeros {n : Numeral} (hn : n.Proper) (hpoint : '.' ∈ n.text) (k : Nat) :
    parse (String.ofList (n.text ++ List.replicate k '0')) = parse (String.ofList n.text) := by
  have hsome := hn.point_mem_text_iff.mp hpoint
  obtain ⟨whole, fraction⟩ := n
  cases fraction with
  | none => exact absurd rfl hsome
  | some digits =>
      have htext : Numeral.text ⟨whole, some digits⟩ ++ List.replicate k '0' =
          Numeral.text ⟨whole, some (digits ++ List.replicate k '0')⟩ := by simp [Numeral.text]
      rw [htext]
      exact parse_eq_of_denotes_eq (hn.append_zeros k) hn (Numeral.denotes_append_zeros _ _ k)

theorem parse_finalPoint {n : Numeral} (hn : n.Proper) (hpoint : '.' ∉ n.text) :
    parse (String.ofList (n.text ++ ['.'])) = parse (String.ofList n.text) := by
  rw [hn.point_mem_text_iff, not_not] at hpoint
  obtain ⟨whole, fraction⟩ := n
  subst hpoint
  have hpointed : Numeral.Proper ⟨whole, some []⟩ := hn
  have htext : Numeral.text ⟨whole, none⟩ ++ ['.'] = Numeral.text ⟨whole, some []⟩ := rfl
  have hdenotes : Numeral.denotes ⟨whole, some []⟩ = Numeral.denotes ⟨whole, none⟩ := rfl
  rw [htext]
  exact parse_eq_of_denotes_eq hpointed hn hdenotes

/-- What the source of a numeral is read as. A double can be converted from it, and the one literal
is the double to which the sum of its digits is rounded. Another source of the same sum has the
same literal, and one of a greater sum no smaller one. In particular zeros in front, zeros at the
end of a fraction and a point at the end make no difference. -/
structure ReadsNumeral (source : String) : Prop where
  convertible : source.toList ∈ Pattern.double.matches'
  literal : ∃ x, parse source = .ok (.literal x) ∧
    ∀ y, IsNearest (decimalSum source.toList) y ↔ y = x
  same : ∀ other : String, other.toList ∈ Pattern.numeral.matches' →
    decimalSum other.toList = decimalSum source.toList → parse other = parse source
  monotone : ∀ other : String, other.toList ∈ Pattern.numeral.matches' →
    decimalSum source.toList ≤ decimalSum other.toList → ∀ x y,
      parse source = .ok (.literal x) → parse other = .ok (.literal y) → x ≤ y
  leadingZeros : ∀ k, parse (String.ofList (List.replicate k '0' ++ source.toList)) = parse source
  trailingZeros : '.' ∈ source.toList → ∀ k,
    parse (String.ofList (source.toList ++ List.replicate k '0')) = parse source
  finalPoint : '.' ∉ source.toList →
    parse (String.ofList (source.toList ++ ['.'])) = parse source

/-- The source of a numeral is read as one literal, its sum of digits rounded. -/
theorem readsNumeral {source : String} (h : source.toList ∈ Pattern.numeral.matches') :
    ReadsNumeral source := by
  obtain ⟨n, hn, hsource, hsum⟩ := exists_numeral_of_mem h
  have hparse : parse source = .ok (.literal n.value) := hsource ▸ parse_numeral hn
  have htext : source.toList = n.text := by rw [hsource, String.toList_ofList]
  exact {
    convertible := Pattern.mem_double_of_mem_numeral h
    literal := by
      refine ⟨n.value, hparse, fun y => ?_⟩
      rw [hsum]
      exact isNearest_value_iff n y
    same := by
      intro other hother hsame
      obtain ⟨m, hm, rfl, hsum'⟩ := exists_numeral_of_mem hother
      rw [hsource]
      exact parse_eq_of_denotes_eq hm hn (hsum'.symm.trans (hsame.trans hsum))
    monotone := by
      intro other hother hle x y hx hy
      obtain ⟨m, hm, rfl, hsum'⟩ := exists_numeral_of_mem hother
      rw [hparse, Except.ok.injEq, Expr.literal.injEq] at hx
      rw [parse_numeral hm, Except.ok.injEq, Expr.literal.injEq] at hy
      rw [hsum, hsum'] at hle
      rw [← hx, ← hy]
      exact nearestFloat_mono n.denotes_nonneg hle
    leadingZeros := by
      intro k
      rw [htext, hsource]
      exact parse_leadingZeros hn k
    trailingZeros := by
      intro hpoint k
      rw [htext] at hpoint ⊢
      rw [hsource]
      exact parse_trailingZeros hn hpoint k
    finalPoint := by
      intro hpoint
      rw [htext] at hpoint ⊢
      rw [hsource]
      exact parse_finalPoint hn hpoint }

/-- Halfway between two doubles, to the even one of which it is rounded. -/
theorem readsNumeral_halfway : "9007199254740993".toList ∈ Pattern.numeral.matches' ∧
    ReadsNumeral "9007199254740993" := by
  have h : "9007199254740993".toList ∈ Pattern.numeral.matches' :=
    Pattern.mem_numeral.mpr ⟨.ofNat 9007199254740993, Numeral.ofNat_proper _, by decide +kernel⟩
  exact ⟨h, readsNumeral h⟩

end Grammar

end FourFunction
