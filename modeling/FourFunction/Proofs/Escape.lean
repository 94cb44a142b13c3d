import FourFunction.Text.Escape
import Mathlib.Data.List.Basic

/-! Texts with their control characters escaped: which characters these are and what each is written
as. A text without controls is not changed, and one without backslashes is known from what it is
changed to. -/

namespace FourFunction.Text

/-! ## Controls -/

theorem isTerminalControl_iff {c : Char} :
    isTerminalControl c ↔ c ∈ ['\x07', '\x08', '\x0c', '\x1b', '\x7f'] := by
  simp [isTerminalControl, or_assoc]

theorem isUpperControl_iff {c : Char} : isUpperControl c ↔ 0x80 ≤ c.toNat ∧ c.toNat ≤ 0x9f := by
  simp [isUpperControl]

theorem toNat_lt_of_isTerminalControl {c : Char} (h : isTerminalControl c) : c.toNat < 128 := by
  have hc := isTerminalControl_iff.mp h
  simp only [List.mem_cons, List.not_mem_nil, or_false] at hc
  rcases hc with rfl | rfl | rfl | rfl | rfl <;> decide

theorem toNat_lt_of_isUpperControl {c : Char} (h : isUpperControl c) : c.toNat < 256 :=
  Nat.lt_of_le_of_lt (isUpperControl_iff.mp h).2 (by decide)

/-! ## Texts -/

theorem escapeControls_eq_self {message : String}
    (h : ∀ c ∈ message.toList, isTerminalControl c = false ∧ isUpperControl c = false) :
    escapeControls message = message := by
  have hkept : message.toList.flatMap escapeChar = message.toList.flatMap fun c => [c] := by
    refine List.flatMap_congr fun c hc => ?_
    obtain ⟨hterminal, hupper⟩ := h c hc
    simp [escapeChar, hterminal, hupper]
  rw [escapeControls, hkept, List.flatMap_singleton', String.ofList_toList]

theorem escapeControls_append (s t : String) :
    escapeControls (s ++ t) = escapeControls s ++ escapeControls t := by
  rw [escapeControls, String.toList_append, List.flatMap_append, String.ofList_append]
  rfl

/-- Digits are not escaped. -/
theorem isControl_eq_false_of_isDigit {c : Char} (h : c.isDigit) :
    isTerminalControl c = false ∧ isUpperControl c = false := by
  constructor <;> rw [← Bool.not_eq_true] <;> intro hcontrol
  · have hc := isTerminalControl_iff.mp hcontrol
    simp only [List.mem_cons, List.not_mem_nil, or_false] at hc
    rcases hc with rfl | rfl | rfl | rfl | rfl <;> exact absurd h (by decide)
  · have hlower := (isUpperControl_iff.mp hcontrol).1
    have hupper := (Char.isDigit_iff_toNat.mp h).2
    have hnine : '9'.toNat = 57 := rfl
    omega

theorem escapeControls_repr (n : Nat) : escapeControls n.repr = n.repr := by
  refine escapeControls_eq_self fun c hc => isControl_eq_false_of_isDigit ?_
  rw [Nat.toList_repr] at hc
  exact Nat.isDigit_of_mem_toDigits (by decide) (by decide) hc

/-! ## Codes -/

/-- A number below 256 in two hexadecimal digits. -/
def hexCode (n : Nat) : List Char :=
  [Nat.digitChar (n / 16), Nat.digitChar (n % 16)]

theorem leftpad_toDigits_sixteen {n : Nat} (h : n < 256) :
    List.leftpad 2 '0' (Nat.toDigits 16 n) = hexCode n := by
  have hall : ∀ n < 256, List.leftpad 2 '0' (Nat.toDigits 16 n) = hexCode n := by decide +kernel
  exact hall n h

theorem digitChar_injOn {m n : Nat} (hm : m < 16) (hn : n < 16)
    (h : Nat.digitChar m = Nat.digitChar n) : m = n := by
  have hall : ∀ m < 16, ∀ n < 16, Nat.digitChar m = Nat.digitChar n → m = n := by decide +kernel
  exact hall m hm n hn h

theorem eq_of_hexCode_append_eq {m n : Nat} {xs ys : List Char} (hm : m < 256) (hn : n < 256)
    (h : hexCode m ++ xs = hexCode n ++ ys) : m = n ∧ xs = ys := by
  obtain ⟨hhigh, hlow, hrest⟩ : Nat.digitChar (m / 16) = Nat.digitChar (n / 16) ∧
      Nat.digitChar (m % 16) = Nat.digitChar (n % 16) ∧ xs = ys := by
    simpa only [hexCode, List.cons_append, List.nil_append, List.cons.injEq] using h
  have hquotient := digitChar_injOn (by omega) (by omega) hhigh
  have hremainder := digitChar_injOn (by omega) (by omega) hlow
  exact ⟨by omega, hrest⟩

/-! ## Escapes -/

/-- A character is kept, or it is escaped in one of two ways. -/
theorem escapeChar_cases (c : Char) : escapeChar c = [c] ∨ c.toNat < 256 ∧
    (escapeChar c = '\\' :: 'x' :: hexCode c.toNat ∨
      escapeChar c = '\\' :: 'u' :: '\x7b' :: (hexCode c.toNat ++ ['\x7d'])) := by
  rw [escapeChar]
  split
  next h =>
    have hlt : c.toNat < 256 := Nat.lt_trans (toNat_lt_of_isTerminalControl h) (by decide)
    rw [leftpad_toDigits_sixteen hlt]
    exact .inr ⟨hlt, .inl rfl⟩
  · split
    next h =>
      have hlt := toNat_lt_of_isUpperControl h
      rw [leftpad_toDigits_sixteen hlt]
      exact .inr ⟨hlt, .inr rfl⟩
    · exact .inl rfl

/-! ## Escapes one by one -/

/-- What a character is written as. Five controls among the first 128 and those from U+0080 to
U+009F are written by their codes, and all others stay. -/
inductive EscapedAs : Char → List Char → Prop where
  | bell : EscapedAs '\x07' ['\\', 'x', '0', '7']
  | backspace : EscapedAs '\x08' ['\\', 'x', '0', '8']
  | formFeed : EscapedAs '\x0c' ['\\', 'x', '0', 'c']
  | escape : EscapedAs '\x1b' ['\\', 'x', '1', 'b']
  | delete : EscapedAs '\x7f' ['\\', 'x', '7', 'f']
  | upper {c : Char} (hlower : 0x80 ≤ c.toNat) (hupper : c.toNat ≤ 0x9f) :
      EscapedAs c ('\\' :: 'u' :: '\x7b' :: (hexCode c.toNat ++ ['\x7d']))
  | kept {c : Char} (hc : c ∉ ['\x07', '\x08', '\x0c', '\x1b', '\x7f'])
      (hupper : ¬ (0x80 ≤ c.toNat ∧ c.toNat ≤ 0x9f)) : EscapedAs c [c]

/-- A text is written character by character. -/
inductive Escapes : List Char → List Char → Prop where
  | nil : Escapes [] []
  | cons {c : Char} {cs written rest : List Char} :
      EscapedAs c written → Escapes cs rest → Escapes (c :: cs) (written ++ rest)

theorem exists_escapedAs (c : Char) : ∃ written, EscapedAs c written := by
  by_cases hc : c ∈ ['\x07', '\x08', '\x0c', '\x1b', '\x7f']
  · simp only [List.mem_cons, List.not_mem_nil, or_false] at hc
    rcases hc with rfl | rfl | rfl | rfl | rfl
    · exact ⟨_, .bell⟩
    · exact ⟨_, .backspace⟩
    · exact ⟨_, .formFeed⟩
    · exact ⟨_, .escape⟩
    · exact ⟨_, .delete⟩
  · by_cases hupper : 0x80 ≤ c.toNat ∧ c.toNat ≤ 0x9f
    · exact ⟨_, .upper hupper.1 hupper.2⟩
    · exact ⟨_, .kept hc hupper⟩

theorem EscapedAs.escapeChar_eq {c : Char} {written : List Char} (h : EscapedAs c written) :
    escapeChar c = written := by
  cases h with
  | bell => decide +kernel
  | backspace => decide +kernel
  | formFeed => decide +kernel
  | escape => decide +kernel
  | delete => decide +kernel
  | upper hlower hupper =>
      have hterminal : ¬ isTerminalControl c := by
        intro hterminal
        have := toNat_lt_of_isTerminalControl hterminal
        omega
      rw [escapeChar, if_neg hterminal, if_pos (isUpperControl_iff.mpr ⟨hlower, hupper⟩),
        leftpad_toDigits_sixteen (by omega)]
      rfl
  | kept hc hupper =>
      rw [escapeChar, if_neg (isTerminalControl_iff.not.mpr hc),
        if_neg (isUpperControl_iff.not.mpr hupper)]

theorem escapedAs_iff {c : Char} {written : List Char} :
    EscapedAs c written ↔ escapeChar c = written := by
  refine ⟨EscapedAs.escapeChar_eq, ?_⟩
  rintro rfl
  obtain ⟨written, h⟩ := exists_escapedAs c
  rwa [h.escapeChar_eq]

theorem escapes_iff_flatMap_eq {cs written : List Char} :
    Escapes cs written ↔ cs.flatMap escapeChar = written := by
  constructor
  · intro h
    induction h with
    | nil => rfl
    | cons hc _ ih => rw [List.flatMap_cons, hc.escapeChar_eq, ih]
  · rintro rfl
    induction cs with
    | nil => exact .nil
    | cons c cs ih => exact .cons (escapedAs_iff.mpr rfl) ih

/-- A text has one way to be written, and it is written in that way. -/
theorem escapes_iff {message line : String} :
    Escapes message.toList line.toList ↔ escapeControls message = line := by
  rw [escapes_iff_flatMap_eq, ← String.toList_inj, escapeControls, String.toList_ofList]

/-! ## Texts behind escapes -/

theorem escapeChar_ne_nil (c : Char) : escapeChar c ≠ [] := by
  rcases escapeChar_cases c with h | ⟨-, h | h⟩ <;> simp [h]

/-- Without backslashes the first character of a text is known from its escape. -/
theorem eq_of_escapeChar_append_eq {c d : Char} {xs ys : List Char} (hc : c ≠ '\\') (hd : d ≠ '\\')
    (h : escapeChar c ++ xs = escapeChar d ++ ys) : c = d ∧ xs = ys := by
  rcases escapeChar_cases c with hkept | ⟨hlt, hshort | hlong⟩
  · rcases escapeChar_cases d with hkept' | ⟨-, hshort' | hlong'⟩
    · simpa [hkept, hkept'] using h
    · simp [hkept, hshort', hc] at h
    · simp [hkept, hlong', hc] at h
  · rcases escapeChar_cases d with hkept' | ⟨hlt', hshort' | hlong'⟩
    · simp [hshort, hkept', hd.symm] at h
    · rw [hshort, hshort'] at h
      simp only [List.cons_append, List.cons.injEq, true_and] at h
      obtain ⟨hcode, hrest⟩ := eq_of_hexCode_append_eq hlt hlt' h
      exact ⟨Char.toNat_inj.mp hcode, hrest⟩
    · simp [hshort, hlong'] at h
  · rcases escapeChar_cases d with hkept' | ⟨hlt', hshort' | hlong'⟩
    · simp [hlong, hkept', hd.symm] at h
    · simp [hlong, hshort'] at h
    · rw [hlong, hlong'] at h
      simp only [List.cons_append, List.cons.injEq, true_and, List.append_assoc] at h
      obtain ⟨hcode, hrest⟩ := eq_of_hexCode_append_eq hlt hlt' h
      exact ⟨Char.toNat_inj.mp hcode, (List.cons.inj hrest).2⟩

theorem eq_of_flatMap_escapeChar_eq {cs ds : List Char} (hcs : '\\' ∉ cs) (hds : '\\' ∉ ds)
    (h : cs.flatMap escapeChar = ds.flatMap escapeChar) : cs = ds := by
  induction cs generalizing ds with
  | nil =>
      cases ds with
      | nil => rfl
      | cons d ds => simp [escapeChar_ne_nil] at h
  | cons c cs ih =>
      cases ds with
      | nil => simp [escapeChar_ne_nil] at h
      | cons d ds =>
          rw [List.mem_cons, not_or] at hcs hds
          obtain ⟨rfl, hrest⟩ := eq_of_escapeChar_append_eq (Ne.symm hcs.1) (Ne.symm hds.1) h
          rw [ih hcs.2 hds.2 hrest]

/-- Escaping loses nothing of a text without backslashes. -/
theorem eq_of_escapeControls_eq {s t : String} (hs : '\\' ∉ s.toList) (ht : '\\' ∉ t.toList)
    (h : escapeControls s = escapeControls t) : s = t :=
  String.toList_inj.mp (eq_of_flatMap_escapeChar_eq hs ht (String.ofList_inj.mp h))

end FourFunction.Text
