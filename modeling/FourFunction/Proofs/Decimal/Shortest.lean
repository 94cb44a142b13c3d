import FourFunction.Proofs.Decimal.Reduced
import FourFunction.Proofs.Numeric.Reading

/-! The shortest decimal reads back, so the text of a finite double without a sign is a numeral for
that double. -/

namespace FourFunction.Decimal

open Numeric

theorem nearestPattern_of_neighbour? {q : Rat} {extra : Nat} {d : Decimal}
    (h : neighbour? q extra = some d) : nearestPattern d.value = nearestPattern q := by
  simp only [neighbour?, readsBackAs, beq_iff_eq] at h
  split at h
  next hbelow =>
    split at h
    next habove =>
      obtain rfl := Option.some.inj h
      split
      · exact hbelow
      · exact habove
    · obtain rfl := Option.some.inj h
      exact hbelow
  · split at h
    next habove =>
      obtain rfl := Option.some.inj h
      exact habove
    · simp at h

/-- Every halving of one is five tenths of the one before. -/
theorem value_ofDyadic {q : Rat} (hq : 0 ≤ q) (hden : ∃ j, q.den = 2 ^ j) :
    (ofDyadic q).value = q := by
  obtain ⟨j, hj⟩ := hden
  have hnum : ((q.num.toNat : Nat) : Int) = q.num := Int.toNat_of_nonneg (Rat.num_nonneg.mpr hq)
  have hfive : (10 : Rat) ^ j = 5 ^ j * 2 ^ j := by rw [← mul_pow]; norm_num
  rw [value_eq, ofDyadic, hj, Nat.log2_two_pow]
  conv_rhs => rw [← Rat.num_div_den q, hj, ← hnum]
  simp only [zpow_neg, zpow_natCast, Nat.pow_eq]
  push_cast
  rw [hfive]
  field_simp

/-- The shortest decimal reads back as the rational it is made for. -/
theorem nearestPattern_shortest {q : Rat} (hq : 0 ≤ q) (hden : ∃ j, q.den = 2 ^ j) :
    nearestPattern (shortest q).value = nearestPattern q := by
  rw [shortest]
  cases hfound : (List.range 17).findSome? (neighbour? q) with
  | none => rw [Option.getD_none, value_ofDyadic hq hden]
  | some d =>
      obtain ⟨extra, -, hd⟩ := List.exists_of_findSome?_eq_some hfound
      exact nearestPattern_of_neighbour? hd

/-- The text of a finite double is a sign and a numeral that is rounded as the magnitude is. -/
theorem exists_numeral_of_finite {x : Float} {negative : Bool} {q : Rat}
    (h : Reading.ofFloat x = .finite negative q) :
    ∃ n : Numeral, n.Reduced ∧ plain x = signText negative ++ n.text ∧
      nearestPattern n.denotes = nearestPattern q := by
  obtain ⟨p, -, hq⟩ := exists_pattern h
  rw [plain, h]
  by_cases hzero : q = 0
  · refine ⟨.ofNat 0, Numeral.ofNat_reduced 0, ?_, ?_⟩
    · simp only [hzero, ↓reduceIte]
      rfl
    · rw [Numeral.denotes_ofNat, hzero]
      rfl
  · obtain ⟨n, hn, htext, hdenotes⟩ := (shortest q).exists_reduced_positional
    refine ⟨n, hn, ?_, ?_⟩
    · simp only [hzero, ↓reduceIte, htext]
    · rw [hdenotes, nearestPattern_shortest]
      · exact hq ▸ magnitudeOfPattern_nonneg p
      · exact hq ▸ den_magnitudeOfPattern p

/-- The text of a finite double without a sign is a numeral whose value is the double. -/
theorem exists_numeral_plain {x : Float} {q : Rat} (h : Reading.ofFloat x = .finite false q) :
    ∃ n : Numeral, n.Proper ∧ n.text = plain x ∧ n.value = x := by
  obtain ⟨n, hn, htext, hpattern⟩ := exists_numeral_of_finite h
  refine ⟨n, hn.proper, htext.symm, nearestFloat_eq ?_⟩
  rw [hpattern, toBits_of_finite h]
  exact (Nat.zero_add _).symm

end FourFunction.Decimal
