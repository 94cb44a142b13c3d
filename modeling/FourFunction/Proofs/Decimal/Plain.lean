import FourFunction.Proofs.Decimal.Shortest
import FourFunction.Proofs.Numeric.Equality

/-! The texts of literals. Each is written with few characters and belongs to one double only. -/

namespace FourFunction.Decimal

open Numeric

/-! ## Characters -/

/-- The characters of literals other than digits. -/
def plainMarks : List Char := ['.', '-', 'N', 'a', 'i', 'n', 'f']

/-- A finite literal has no letters. -/
theorem not_mem_plain_of_finite {c : Char} (hdigit : c.isDigit = false) (hmark : c ∉ ['.', '-'])
    {x : Float} {negative : Bool} {q : Rat} (hx : Reading.ofFloat x = .finite negative q) :
    c ∉ plain x := by
  obtain ⟨n, hn, htext, -⟩ := exists_numeral_of_finite hx
  simp only [List.mem_cons, List.not_mem_nil, or_false, not_or] at hmark
  intro hmem
  rw [htext, List.mem_append] at hmem
  rcases hmem with hsign | hnumeral
  · cases negative <;> simp [signText, hmark.2] at hsign
  · rcases hn.proper.isDigit_or_point c hnumeral with hc | hc
    · simp [hdigit] at hc
    · exact hmark.1 hc

theorem not_mem_plain {c : Char} (hdigit : c.isDigit = false) (hmark : c ∉ plainMarks)
    (x : Float) : c ∉ plain x := by
  simp only [plainMarks, List.mem_cons, List.not_mem_nil, or_false, not_or] at hmark
  obtain ⟨hpoint, hminus, hN, ha, hi, hn, hf⟩ := hmark
  cases hx : Reading.ofFloat x with
  | nan => simp [plain, hx, hN, ha]
  | infinite negative => cases negative <;> simp [plain, hx, signText, hminus, hi, hn, hf]
  | finite negative q => exact not_mem_plain_of_finite hdigit (by simp [hpoint, hminus]) hx

theorem mem_plain_iff_nan (x : Float) : 'N' ∈ plain x ↔ Reading.ofFloat x = .nan := by
  cases hx : Reading.ofFloat x with
  | nan => simp [plain, hx]
  | infinite negative => cases negative <;> simp [plain, hx, signText]
  | finite negative q => simp [not_mem_plain_of_finite (c := 'N') rfl (by decide) hx]

theorem mem_plain_iff_infinite (x : Float) :
    'i' ∈ plain x ↔ ∃ negative, Reading.ofFloat x = .infinite negative := by
  cases hx : Reading.ofFloat x with
  | nan => simp [plain, hx]
  | infinite negative => simp [plain, hx]
  | finite negative q => simp [not_mem_plain_of_finite (c := 'i') rfl (by decide) hx]

/-! ## Literals from their texts -/

/-- The sign of a numeral and the numeral are determined by the text of both. -/
theorem eq_of_signText_append_eq {negative negative' : Bool} {n m : Numeral} (hn : n.Proper)
    (hm : m.Proper) (h : signText negative ++ n.text = signText negative' ++ m.text) :
    negative = negative' ∧ n = m := by
  have hminus : ∀ {k : Numeral}, k.Proper → '-' ∉ k.text := by
    intro k hk hmem
    have hno := hk.isDigit_or_point '-' hmem
    simp at hno
  cases negative <;> cases negative' <;>
    simp only [signText, Bool.false_eq_true, ↓reduceIte, List.nil_append, List.cons_append,
      List.cons.injEq, true_and] at h
  · exact ⟨rfl, hn.eq_of_text_eq hm h⟩
  · exact absurd (h ▸ List.mem_cons_self) (hminus hn)
  · exact absurd (h ▸ List.mem_cons_self) (hminus hm)
  · exact ⟨rfl, hn.eq_of_text_eq hm h⟩

/-- Two doubles do not have the same text. -/
theorem plain_injective : Function.Injective plain := by
  intro x y h
  cases hx : Reading.ofFloat x with
  | nan =>
      have hy := (mem_plain_iff_nan y).mp (h ▸ (mem_plain_iff_nan x).mpr hx)
      exact ofFloat_injective (hx.trans hy.symm)
  | infinite negative =>
      obtain ⟨negative', hy⟩ :=
        (mem_plain_iff_infinite y).mp (h ▸ (mem_plain_iff_infinite x).mpr ⟨negative, hx⟩)
      have hsign : negative = negative' := by
        cases negative <;> cases negative' <;> simp [plain, hx, hy, signText] at h <;> rfl
      exact ofFloat_injective (hx.trans (hsign ▸ hy.symm))
  | finite negative q =>
      cases hy : Reading.ofFloat y with
      | nan =>
          have hnan := (mem_plain_iff_nan x).mp (h ▸ (mem_plain_iff_nan y).mpr hy)
          simp [hx] at hnan
      | infinite negative' =>
          have hinfinite :=
            (mem_plain_iff_infinite x).mp (h ▸ (mem_plain_iff_infinite y).mpr ⟨negative', hy⟩)
          simp [hx] at hinfinite
      | finite negative' q' =>
          obtain ⟨n, hn, hntext, hnpattern⟩ := exists_numeral_of_finite hx
          obtain ⟨m, hm, hmtext, hmpattern⟩ := exists_numeral_of_finite hy
          rw [hntext, hmtext] at h
          obtain ⟨rfl, rfl⟩ := eq_of_signText_append_eq hn.proper hm.proper h
          refine eq_of_toBits_eq ?_
          rw [toBits_of_finite hx, toBits_of_finite hy, ← hnpattern, hmpattern]

end FourFunction.Decimal
