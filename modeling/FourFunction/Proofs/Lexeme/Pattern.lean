import FourFunction.Proofs.Lexeme.Proper
import Mathlib.Computability.RegularExpressions
import Mathlib.Tactic.IntervalCases

/-! The patterns of numerals as regular expressions. A numeral is read if one of its patterns
matches at the start of a text, and it is then the longest text there that a pattern matches. -/

namespace FourFunction

open RegularExpression (char)

/-! ## Patterns -/

namespace Pattern

/-- One of these characters. -/
def oneOf (cs : List Char) : RegularExpression Char :=
  (cs.map char).foldr (· + ·) 0

/-- `r?` -/
def optional (r : RegularExpression Char) : RegularExpression Char :=
  1 + r

def tenDigits : List Char :=
  ['0', '1', '2', '3', '4', '5', '6', '7', '8', '9']

/-- `[0-9]*` -/
def digits : RegularExpression Char :=
  (oneOf tenDigits).star

/-- `[0-9]+` -/
def someDigits : RegularExpression Char :=
  oneOf tenDigits * digits

/-- `[0-9]+(\.[0-9]*)?` or `\.[0-9]+`, the lexemes that are numbers. -/
def numeral : RegularExpression Char :=
  someDigits * optional (char '.' * digits) + char '.' * someDigits

/-- The letters of a word, each in either case. -/
def word (letters : String) : RegularExpression Char :=
  (letters.toList.map fun c => oneOf [c, c.toUpper]).foldr (· * ·) 1

/-- `[+-]?` -/
def sign : RegularExpression Char :=
  optional (oneOf ['+', '-'])

/-- `[0-9]+`, `[0-9]+\.[0-9]*` or `[0-9]*\.[0-9]+` -/
def decimal : RegularExpression Char :=
  someDigits + someDigits * char '.' * digits + digits * char '.' * someDigits

/-- `([eE][+-]?[0-9]+)?` -/
def exponent : RegularExpression Char :=
  optional (oneOf ['e', 'E'] * sign * someDigits)

/-- All texts from which a double can be converted, with a sign, an exponent or a name if they have
one. Numbers are converted after they are matched, so this is not a pattern of lexemes. -/
def double : RegularExpression Char :=
  sign * (word "inf" + word "infinity" + word "nan" + decimal * exponent)

/-! ## What the patterns match -/

theorem mem_oneOf {cs w : List Char} : w ∈ (oneOf cs).matches' ↔ ∃ c ∈ cs, w = [c] := by
  induction cs with
  | nil => exact iff_of_false id (by simp)
  | cons c cs ih =>
      change w ∈ (char c).matches' + (oneOf cs).matches' ↔ _
      rw [Language.mem_add, ih, List.exists_mem_cons_iff]
      rfl

theorem mem_optional {r : RegularExpression Char} {w : List Char} :
    w ∈ (optional r).matches' ↔ w = [] ∨ w ∈ r.matches' :=
  Iff.rfl

theorem mem_tenDigits {c : Char} : c ∈ tenDigits ↔ c.isDigit := by
  constructor
  · intro h
    have hall : tenDigits.all Char.isDigit := rfl
    exact List.all_eq_true.mp hall c h
  · intro h
    obtain ⟨hlow, hhigh⟩ : 48 ≤ c.toNat ∧ c.toNat ≤ 57 := by
      simpa [Char.isDigit, UInt32.le_iff_toNat_le] using h
    rw [← c.ofNat_toNat]
    generalize c.toNat = n at hlow hhigh
    interval_cases n <;> decide

theorem mem_digits {w : List Char} : w ∈ digits.matches' ↔ ∀ c ∈ w, c.isDigit := by
  rw [digits, RegularExpression.matches'_star, Language.mem_kstar]
  constructor
  · rintro ⟨parts, rfl, hparts⟩ c hc
    obtain ⟨part, hpart, hc⟩ := List.mem_flatten.mp hc
    obtain ⟨d, hd, rfl⟩ := mem_oneOf.mp (hparts part hpart)
    rw [List.mem_singleton.mp hc]
    exact mem_tenDigits.mp hd
  · intro h
    refine ⟨w.map fun c => [c], by simp [← List.flatMap_def], ?_⟩
    intro part hpart
    obtain ⟨c, hc, rfl⟩ := List.mem_map.mp hpart
    exact mem_oneOf.mpr ⟨c, mem_tenDigits.mpr (h c hc), rfl⟩

theorem mem_someDigits {w : List Char} :
    w ∈ someDigits.matches' ↔ w ≠ [] ∧ ∀ c ∈ w, c.isDigit := by
  rw [someDigits, RegularExpression.matches'_mul, Language.mem_mul]
  constructor
  · rintro ⟨first, hfirst, rest, hrest, rfl⟩
    obtain ⟨c, hc, rfl⟩ := mem_oneOf.mp hfirst
    exact ⟨by simp, List.forall_mem_cons.mpr ⟨mem_tenDigits.mp hc, mem_digits.mp hrest⟩⟩
  · rintro ⟨hne, h⟩
    obtain ⟨c, cs, rfl⟩ := List.exists_cons_of_ne_nil hne
    obtain ⟨hc, hcs⟩ := List.forall_mem_cons.mp h
    exact ⟨[c], mem_oneOf.mpr ⟨c, mem_tenDigits.mpr hc, rfl⟩, cs, mem_digits.mpr hcs, rfl⟩

theorem mem_point_mul {r : RegularExpression Char} {w : List Char} :
    w ∈ (char '.' * r).matches' ↔ ∃ rest ∈ r.matches', w = '.' :: rest := by
  rw [RegularExpression.matches'_mul, Language.mem_mul]
  constructor
  · rintro ⟨point, rfl, rest, hrest, rfl⟩
    exact ⟨rest, hrest, rfl⟩
  · rintro ⟨rest, hrest, rfl⟩
    exact ⟨['.'], rfl, rest, hrest, rfl⟩

/-- The texts of numerals with a digit before the point. -/
theorem mem_wholeNumeral {w : List Char} :
    w ∈ (someDigits * optional (char '.' * digits)).matches' ↔
      ∃ n : Numeral, n.Proper ∧ n.whole ≠ [] ∧ n.text = w := by
  rw [RegularExpression.matches'_mul, Language.mem_mul]
  constructor
  · rintro ⟨whole, hwhole, rest, hrest, rfl⟩
    obtain ⟨hne, hwhole⟩ := mem_someDigits.mp hwhole
    rcases mem_optional.mp hrest with rfl | hpoint
    · exact ⟨⟨whole, none⟩, ⟨hwhole, by simp [Numeral.fractionDigits], .inl hne⟩, hne,
        (List.append_nil _).symm⟩
    · obtain ⟨fraction, hfraction, rfl⟩ := mem_point_mul.mp hpoint
      exact ⟨⟨whole, some fraction⟩, ⟨hwhole, mem_digits.mp hfraction, .inl hne⟩, hne, rfl⟩
  · rintro ⟨⟨whole, fraction⟩, ⟨hwhole, hfraction, -⟩, hne, rfl⟩
    refine ⟨whole, mem_someDigits.mpr ⟨hne, hwhole⟩, ?_⟩
    cases fraction with
    | none => exact ⟨[], mem_optional.mpr (.inl rfl), List.append_nil _⟩
    | some digits =>
        exact ⟨'.' :: digits,
          mem_optional.mpr (.inr (mem_point_mul.mpr ⟨digits, mem_digits.mpr hfraction, rfl⟩)), rfl⟩

/-- The numerals are the texts that the two patterns match. -/
theorem mem_numeral {w : List Char} :
    w ∈ numeral.matches' ↔ ∃ n : Numeral, n.Proper ∧ n.text = w := by
  rw [numeral, RegularExpression.matches'_add, Language.mem_add, mem_wholeNumeral, mem_point_mul]
  constructor
  · rintro (⟨n, hn, -, htext⟩ | ⟨fraction, hfraction, rfl⟩)
    · exact ⟨n, hn, htext⟩
    · obtain ⟨hne, hfraction⟩ := mem_someDigits.mp hfraction
      exact ⟨⟨[], some fraction⟩, ⟨by simp, hfraction, .inr hne⟩, rfl⟩
  · rintro ⟨n, hn, rfl⟩
    by_cases hne : n.whole = []
    · obtain ⟨whole, fraction⟩ := n
      obtain ⟨-, hfraction, hsome⟩ := hn
      change whole = [] at hne
      subst hne
      cases fraction with
      | none => simp [Numeral.fractionDigits] at hsome
      | some digits =>
          have hdigits : digits ≠ [] := hsome.resolve_left (by simp)
          exact .inr ⟨digits, mem_someDigits.mpr ⟨hdigits, hfraction⟩, rfl⟩
    · exact .inl ⟨n, hn, hne, rfl⟩

/-- Every text that a pattern matches can be converted to a double. -/
theorem mem_double_of_mem_numeral {w : List Char} (hw : w ∈ numeral.matches') :
    w ∈ double.matches' := by
  -- Neither a sign nor an exponent is needed.
  suffices w ∈ decimal.matches' from
    ⟨[], mem_optional.mpr (.inl rfl), w,
      .inr ⟨w, this, [], mem_optional.mpr (.inl rfl), List.append_nil w⟩, rfl⟩
  rw [numeral, RegularExpression.matches'_add, Language.mem_add, RegularExpression.matches'_mul,
    Language.mem_mul] at hw
  rcases hw with ⟨whole, hwhole, rest, hrest, rfl⟩ | hw
  · rcases mem_optional.mp hrest with rfl | hpoint
    · rw [List.append_nil]
      exact .inl (.inl hwhole)
    · refine .inl (.inr ?_)
      rw [RegularExpression.matches'_mul, RegularExpression.matches'_mul, mul_assoc]
      exact ⟨whole, hwhole, rest, hpoint, rfl⟩
  · refine .inr ?_
    rw [RegularExpression.matches'_mul, RegularExpression.matches'_mul, mul_assoc]
    exact ⟨[], mem_digits.mpr (by simp), w, hw, rfl⟩

end Pattern

/-! ## Longest match -/

namespace Numeral

theorem count_point_of_isDigit {cs : List Char} (h : ∀ c ∈ cs, c.isDigit) : cs.count '.' = 0 :=
  List.count_eq_zero.mpr fun hc => absurd (h _ hc) (by decide)

theorem Proper.count_point {n : Numeral} (hn : n.Proper) :
    n.text.count '.' = if n.fraction = none then 0 else 1 := by
  obtain ⟨whole, fraction⟩ := n
  obtain ⟨hwhole, hfraction, -⟩ := hn
  cases fraction with
  | none => exact count_point_of_isDigit hwhole
  | some digits =>
      have hdigits : ∀ c ∈ digits, c.isDigit := hfraction
      simp [text, count_point_of_isDigit hwhole, count_point_of_isDigit hdigits]

/-- What stops a numeral stops every longer one. -/
theorem StopsBefore.length_le {n m : Numeral} {rest more : List Char} (h : n.StopsBefore rest)
    (hn : n.Proper) (hm : m.Proper) (htext : m.text ++ more = n.text ++ rest) :
    m.text.length ≤ n.text.length := by
  rcases List.append_eq_append_iff.mp htext with ⟨tail, hlonger, -⟩ | ⟨tail, hlonger, hrest⟩
  · rw [hlonger, List.length_append]
    exact Nat.le_add_right _ _
  · cases tail with
    | nil => rw [hlonger, List.append_nil]
    | cons c cs =>
        -- The next character would be a second point.
        obtain ⟨hdigit, hpoint⟩ := h c (by simp [hrest])
        obtain rfl : c = '.' := by
          refine (hm.isDigit_or_point c (by simp [hlonger])).resolve_left ?_
          simp [hdigit]
        have hsome : n.fraction ≠ none := fun hnone => hpoint hnone rfl
        have hcount := hm.count_point
        rw [hlonger, List.count_append, hn.count_point, if_neg hsome, List.count_cons_self]
          at hcount
        split at hcount <;> omega

/-- The numeral that is read is the longest text there that a pattern matches. -/
theorem length_le_of_read? {cs rest m : List Char} {n : Numeral} (h : read? cs = some (n, rest))
    (hstarts : m <+: cs) (hm : m ∈ Pattern.numeral.matches') : m.length ≤ n.text.length := by
  obtain ⟨k, hk, rfl⟩ := Pattern.mem_numeral.mp hm
  obtain ⟨more, hmore⟩ := hstarts
  exact (read?_stopsBefore h).length_le (read?_proper h) hk (hmore.trans (read?_append h).symm)

theorem mem_pattern_of_read? {cs rest : List Char} {n : Numeral} (h : read? cs = some (n, rest)) :
    n.text ∈ Pattern.numeral.matches' :=
  Pattern.mem_numeral.mpr ⟨n, read?_proper h, rfl⟩

/-- A numeral is read wherever the text of one stands, whatever follows it. -/
theorem Proper.isSome_read? {n : Numeral} (hn : n.Proper) (more : List Char) :
    (read? (n.text ++ more)).isSome := by
  obtain ⟨whole, fraction⟩ := n
  obtain ⟨hwhole, hfraction, hsome⟩ := hn
  cases whole with
  | cons c whole =>
      have hc : c.isDigit := hwhole c (by simp)
      cases fraction with
      | none => exact (read?_isSome_iff c _).mpr (.inl hc)
      | some digits => exact (read?_isSome_iff c _).mpr (.inl hc)
  | nil =>
      cases fraction with
      | none => simp [fractionDigits] at hsome
      | some digits =>
          obtain ⟨d, ds, rfl⟩ := List.exists_cons_of_ne_nil (hsome.resolve_left (by simp))
          have hd : d.isDigit := hfraction d (by simp [fractionDigits])
          exact (read?_isSome_iff '.' (d :: ds ++ more)).mpr (.inr ⟨rfl, d, rfl, hd⟩)

/-- Nothing is read only where no pattern matches. -/
theorem not_mem_pattern_of_read?_eq_none {cs m : List Char} (h : read? cs = none)
    (hstarts : m <+: cs) : m ∉ Pattern.numeral.matches' := by
  intro hm
  obtain ⟨n, hn, rfl⟩ := Pattern.mem_numeral.mp hm
  obtain ⟨more, rfl⟩ := hstarts
  have hread := hn.isSome_read? more
  rw [h] at hread
  exact absurd hread (by simp)

end Numeral

end FourFunction
