import FourFunction.Proofs.Decimal.Layout

/-! Numerals written with no more characters than they need. Such a numeral is determined by what it
denotes, and removal of the zeros at the end of a fraction leads to one. -/

namespace FourFunction

namespace Numeral

/-- No zeros stand at the end of the fraction, and a point stands only where a fraction follows. -/
def Trimmed (n : Numeral) : Prop :=
  ∀ ds, n.fraction = some ds → (∀ c ∈ ds, c.isDigit) ∧ ∃ init last, init ++ [last] = ds ∧ last ≠ '0'

/-- No zeros stand before the other digits or at the end of the fraction, and a point stands only
where a fraction follows. -/
structure Reduced (n : Numeral) : Prop where
  whole : ∃ w, n.whole = Nat.toDigits 10 w
  fraction : ∀ ds, n.fraction = some ds →
    (∀ c ∈ ds, c.isDigit) ∧ ∃ init last, init ++ [last] = ds ∧ last ≠ '0'

theorem Reduced.trimmed {n : Numeral} (h : n.Reduced) : n.Trimmed :=
  h.fraction

theorem Trimmed.isDigit {n : Numeral} (h : n.Trimmed) : ∀ c ∈ n.fractionDigits, c.isDigit := by
  intro c hc
  rw [fractionDigits] at hc
  cases hf : n.fraction with
  | none => simp [hf] at hc
  | some ds =>
      rw [hf, Option.getD_some] at hc
      exact (h ds hf).1 c hc

theorem Reduced.proper {n : Numeral} (h : n.Reduced) : n.Proper := by
  obtain ⟨w, hw⟩ := h.whole
  refine ⟨?_, h.trimmed.isDigit, .inl (hw ▸ Nat.toDigits_ne_nil)⟩
  intro c hc
  rw [hw] at hc
  exact Nat.isDigit_of_mem_toDigits (by decide) (by decide) hc

theorem ofNat_reduced (n : Nat) : (ofNat n).Reduced :=
  ⟨⟨n, rfl⟩, fun _ h => by simp [ofNat] at h⟩

theorem whole_stripped (n : Numeral) : n.stripped.whole = n.whole := by
  obtain ⟨whole, fraction⟩ := n
  cases fraction <;> rfl

theorem Proper.stripped_trimmed {n : Numeral} (hn : n.Proper) : n.stripped.Trimmed := by
  obtain ⟨whole, fraction⟩ := n
  cases fraction with
  | none => exact fun _ h => nomatch h
  | some fraction =>
      intro ds hds
      change (if _ then none else some _) = some ds at hds
      split at hds
      · simp at hds
      next hkept =>
        obtain rfl := Option.some.inj hds
        refine ⟨?_, ?_⟩
        · intro c hc
          refine hn.2.1 c ?_
          rw [← Text.dropTrailing_append (· == '0') fraction]
          exact List.mem_append_left _ hc
        · obtain ⟨init, last, hlast⟩ := (List.eq_nil_or_concat' _).resolve_left hkept
          refine ⟨init, last, hlast.symm, ?_⟩
          have hmem : last ∈ (Text.dropTrailing (· == '0') fraction).getLast? := by simp [hlast]
          have hzero := Text.eq_false_of_mem_getLast?_dropTrailing hmem
          simpa using hzero

theorem Proper.stripped_proper {n : Numeral} (hn : n.Proper) (hwhole : n.whole ≠ []) :
    n.stripped.Proper := by
  rw [← n.whole_stripped] at hwhole
  exact ⟨n.whole_stripped ▸ hn.1, hn.stripped_trimmed.isDigit, .inl hwhole⟩

theorem Proper.stripped_reduced {n : Numeral} (hn : n.Proper)
    (hwhole : ∃ w, n.whole = Nat.toDigits 10 w) : n.stripped.Reduced :=
  ⟨n.whole_stripped ▸ hwhole, hn.stripped_trimmed⟩

/-! ## Digits and what they denote -/

theorem digit_lt_ten {c : Char} (hc : c.isDigit) : c.toNat - '0'.toNat < 10 := by
  obtain ⟨hlower, hupper⟩ := Char.isDigit_iff_toNat.mp hc
  have hzero : '0'.toNat = 48 := rfl
  have hnine : '9'.toNat = 57 := rfl
  omega

theorem eq_of_digit_eq {c d : Char} (hc : c.isDigit) (hd : d.isDigit)
    (h : c.toNat - '0'.toNat = d.toNat - '0'.toNat) : c = d := by
  have hc' := (Char.isDigit_iff_toNat.mp hc).1
  have hd' := (Char.isDigit_iff_toNat.mp hd).1
  exact Char.toNat_inj.mp (by omega)

theorem ofDigitChars_concat (ds : List Char) (c : Char) :
    Nat.ofDigitChars 10 (ds ++ [c]) 0 = 10 * Nat.ofDigitChars 10 ds 0 + (c.toNat - '0'.toNat) := by
  rw [Nat.ofDigitChars_append, Nat.ofDigitChars_cons, Nat.ofDigitChars_nil]

theorem ofDigitChars_lt {ds : List Char} (h : ∀ c ∈ ds, c.isDigit) :
    Nat.ofDigitChars 10 ds 0 < 10 ^ ds.length := by
  induction ds using List.reverseRecOn with
  | nil => simp
  | append_singleton ds c ih =>
      rw [List.forall_mem_append] at h
      have hds := ih h.1
      have hc := digit_lt_ten (h.2 c (by simp))
      rw [ofDigitChars_concat, List.length_append, List.length_singleton, pow_succ]
      omega

/-- Digits of one length are determined by their number. -/
theorem eq_of_ofDigitChars_eq {ds es : List Char} (hds : ∀ c ∈ ds, c.isDigit)
    (hes : ∀ c ∈ es, c.isDigit) (hlength : ds.length = es.length)
    (h : Nat.ofDigitChars 10 ds 0 = Nat.ofDigitChars 10 es 0) : ds = es := by
  induction ds using List.reverseRecOn generalizing es with
  | nil => exact (List.length_eq_zero_iff.mp hlength.symm).symm
  | append_singleton ds c ih =>
      obtain ⟨es, d, rfl⟩ := (List.eq_nil_or_concat' es).resolve_left (by
        rintro rfl
        simp at hlength)
      rw [List.forall_mem_append] at hds hes
      have hc := hds.2 c (by simp)
      have hd := hes.2 d (by simp)
      have hcten := digit_lt_ten hc
      have hdten := digit_lt_ten hd
      rw [ofDigitChars_concat, ofDigitChars_concat] at h
      rw [ih hds.1 hes.1 (by simpa using hlength) (by omega), eq_of_digit_eq hc hd (by omega)]

/-- A number of units without a zero at its end is not written with fewer places. -/
theorem length_le_of_mul_eq {ds es : List Char} (hes : ∀ c ∈ es, c.isDigit)
    (hlast : ∀ c ∈ es.getLast?, c ≠ '0')
    (h : Nat.ofDigitChars 10 ds 0 * 10 ^ es.length = Nat.ofDigitChars 10 es 0 * 10 ^ ds.length) :
    es.length ≤ ds.length := by
  by_contra hlt
  obtain ⟨k, hk⟩ := Nat.exists_eq_add_of_lt (not_le.mp hlt)
  rw [hk, show ds.length + k + 1 = (k + 1) + ds.length by ring, pow_add, ← mul_assoc] at h
  have hunits := Nat.eq_of_mul_eq_mul_right (by positivity) h
  obtain ⟨es, c, rfl⟩ := (List.eq_nil_or_concat' es).resolve_left (by
    rintro rfl
    simp at hk)
  rw [List.forall_mem_append] at hes
  have hc := hes.2 c (by simp)
  have hten := digit_lt_ten hc
  rw [ofDigitChars_concat, pow_succ, ← mul_assoc] at hunits
  refine hlast c (by simp) (eq_of_digit_eq hc (by decide) ?_)
  omega

theorem denotes_eq_whole_add (n : Numeral) : n.denotes =
    (10 ^ n.fractionDigits.length * Nat.ofDigitChars 10 n.whole 0 +
      Nat.ofDigitChars 10 n.fractionDigits 0 : Nat) / 10 ^ n.fractionDigits.length := by
  rw [denotes_eq, Nat.ofDigitChars_append, Nat.ofDigitChars_eq_ofDigitChars_zero]

theorem whole_le_of_mul_eq {P Q w w' F F' : Nat} (hP : 0 < P) (hF' : F' < Q)
    (h : (P * w + F) * Q = (Q * w' + F') * P) : w ≤ w' := by
  have hlt : P * Q * w < P * Q * (w' + 1) :=
    calc
      P * Q * w ≤ (P * w + F) * Q := by nlinarith
      _ = (Q * w' + F') * P := h
      _ < (Q * w' + Q) * P := by gcongr
      _ = P * Q * (w' + 1) := by ring
  exact Nat.lt_succ_iff.mp (lt_of_mul_lt_mul_left hlt (Nat.zero_le _))

theorem Trimmed.fraction_eq {n : Numeral} (h : n.Trimmed) :
    n.fraction = if n.fractionDigits = [] then none else some n.fractionDigits := by
  cases hf : n.fraction with
  | none => simp [fractionDigits, hf]
  | some ds =>
      obtain ⟨-, init, last, rfl, -⟩ := h ds hf
      simp [fractionDigits, hf]

theorem Trimmed.getLast?_ne {n : Numeral} (h : n.Trimmed) :
    ∀ c ∈ n.fractionDigits.getLast?, c ≠ '0' := by
  intro c hc
  rw [fractionDigits] at hc
  cases hf : n.fraction with
  | none => simp [hf] at hc
  | some ds =>
      obtain ⟨-, init, last, rfl, hlast⟩ := h ds hf
      rw [hf] at hc
      obtain rfl : last = c := by simpa using hc
      exact hlast

/-- Numerals for one rational are one number of units of a place that is low enough for both. -/
theorem units_eq_of_denotes_eq {n n' : Numeral} (h : n.denotes = n'.denotes) :
    (10 ^ n.fractionDigits.length * Nat.ofDigitChars 10 n.whole 0 +
        Nat.ofDigitChars 10 n.fractionDigits 0) * 10 ^ n'.fractionDigits.length =
      (10 ^ n'.fractionDigits.length * Nat.ofDigitChars 10 n'.whole 0 +
        Nat.ofDigitChars 10 n'.fractionDigits 0) * 10 ^ n.fractionDigits.length := by
  rw [denotes_eq_whole_add, denotes_eq_whole_add,
    div_eq_div_iff (by positivity) (by positivity)] at h
  exact_mod_cast h

/-- Behind one number of ones there is one way only to write a fraction without zeros at its end. -/
theorem Trimmed.eq_of_denotes_eq {n n' : Numeral} (h : n.Trimmed) (h' : n'.Trimmed)
    (hwhole : n.whole = n'.whole) (hdenotes : n.denotes = n'.denotes) : n = n' := by
  have hall := units_eq_of_denotes_eq hdenotes
  rw [hwhole] at hall
  have hunits : Nat.ofDigitChars 10 n.fractionDigits 0 * 10 ^ n'.fractionDigits.length =
      Nat.ofDigitChars 10 n'.fractionDigits 0 * 10 ^ n.fractionDigits.length := by linarith
  have hlength := le_antisymm (length_le_of_mul_eq h.isDigit h.getLast?_ne hunits.symm)
    (length_le_of_mul_eq h'.isDigit h'.getLast?_ne hunits)
  rw [hlength] at hunits
  have hfraction := eq_of_ofDigitChars_eq h.isDigit h'.isDigit hlength
    (Nat.eq_of_mul_eq_mul_right (by positivity) hunits)
  have hsame : n.fraction = n'.fraction := by rw [h.fraction_eq, h'.fraction_eq, hfraction]
  cases n
  cases n'
  simp_all

/-- Nothing is removed from a fraction without zeros at its end. -/
theorem Trimmed.stripped_eq {n : Numeral} (h : n.Trimmed) (hn : n.Proper) : n.stripped = n :=
  hn.stripped_trimmed.eq_of_denotes_eq h n.whole_stripped n.denotes_stripped

/-- There is one way only to write a rational without needless characters. -/
theorem Reduced.eq_of_denotes_eq {n n' : Numeral} (h : n.Reduced) (h' : n'.Reduced)
    (hdenotes : n.denotes = n'.denotes) : n = n' := by
  obtain ⟨w, hw⟩ := h.whole
  obtain ⟨w', hw'⟩ := h'.whole
  have hall := units_eq_of_denotes_eq hdenotes
  rw [hw, hw', Nat.ofDigitChars_ten_toDigits, Nat.ofDigitChars_ten_toDigits] at hall
  obtain rfl : w = w' := le_antisymm
    (whole_le_of_mul_eq (by positivity) (ofDigitChars_lt h'.proper.2.1) hall)
    (whole_le_of_mul_eq (by positivity) (ofDigitChars_lt h.proper.2.1) hall.symm)
  exact h.trimmed.eq_of_denotes_eq h'.trimmed (hw.trans hw'.symm) hdenotes

/-! ## Texts of decimals -/

theorem exists_whole_ofUnits (places n : Nat) :
    ∃ w, (ofUnits places n).whole = Nat.toDigits 10 w := by
  rw [ofUnits]
  split <;> exact ⟨_, rfl⟩

/-- Units of a decimal place without the zeros at the end are written in the shortest way. -/
theorem exists_reduced_pointed (places n : Nat) : ∃ m : Numeral, m.Reduced ∧
    m.text = Decimal.stripTrailingZeros (Decimal.pointed places n) ∧
    m.denotes = (n : Rat) / 10 ^ places := by
  have hproper := ofUnits_proper places n
  refine ⟨_, hproper.stripped_reduced (exists_whole_ofUnits places n), ?_, ?_⟩
  · rw [text_stripped hproper (whole_ofUnits_ne_nil places n), text_ofUnits]
  · rw [denotes_stripped, denotes_ofUnits]

end Numeral

/-- The text of a decimal is that of a numeral for the decimal, written in the shortest way. -/
theorem Decimal.exists_reduced_positional (d : Decimal) :
    ∃ n : Numeral, n.Reduced ∧ n.text = d.positional ∧ n.denotes = d.value := by
  rw [positional, value_eq]
  split
  next h =>
    refine ⟨.ofNat _, Numeral.ofNat_reduced _, rfl, ?_⟩
    obtain ⟨k, hk⟩ := Int.eq_ofNat_of_zero_le h
    rw [Numeral.denotes_ofNat, hk]
    simp
  next h =>
    obtain ⟨k, hk⟩ := Int.eq_ofNat_of_zero_le (show 0 ≤ -d.exponent by omega)
    obtain ⟨n, hn, htext, hdenotes⟩ := Numeral.exists_reduced_pointed (-d.exponent).toNat d.digits
    refine ⟨n, hn, htext, ?_⟩
    rw [hdenotes, hk, Int.toNat_natCast, show d.exponent = -(k : Int) by omega, zpow_neg,
      zpow_natCast, div_eq_mul_inv]

end FourFunction
