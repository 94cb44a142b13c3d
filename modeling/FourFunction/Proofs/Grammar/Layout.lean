import FourFunction.Grammar.Layout
import FourFunction.Proofs.Cursor.Tiling
import FourFunction.Proofs.Grammar.Exactness

/-! Layout does not matter. The tree of a source, or the fault that it has and the lexeme at which
it has it, depends on the texts of its lexemes and not on the blanks around them. -/

namespace FourFunction

open Text

/-! ## Lexemes and their texts -/

/-- A lexeme is read from its own text, whatever the text was in which it was found. -/
theorem Lexeme.read?_text {cs rest : List Char} {l : Lexeme} (h : read? cs = some (l, rest)) :
    read? l.text = some (l, []) := by
  rcases read?_eq_some h with ⟨c, s, -, -, rfl⟩ | ⟨n, hn, rfl⟩ | ⟨c, rfl, hs, hn, rfl⟩
  · simp [text, read?]
  · have hend : (numeral n).StopsBefore [] := by simp [StopsBefore, Numeral.StopsBefore]
    have hread := read?_text_append (l := numeral n) (Numeral.read?_proper hn) hend
    rwa [List.append_nil] at hread
  · have hnone : Numeral.read? [c] = none := by
      rw [← Option.not_isSome_iff_eq_none, Numeral.read?_isSome_iff] at hn ⊢
      simp_all
    simp [text, read?, hs, hnone]

namespace Cursor

theorem read?_text_of_mem_lexemes (c : Cursor) :
    ∀ p ∈ c.lexemes, Lexeme.read? p.lexeme.text = some (p.lexeme, []) := by
  fun_induction lexemes c with
  | case1 c hr => simp
  | case2 c p after hr ih =>
      rw [List.forall_mem_cons]
      exact ⟨Lexeme.read?_text (read?_eq_some hr).2.2, ih⟩

/-- Texts of lexemes say what the lexemes are. -/
theorem lexemes_eq_of_texts_eq {c d : Cursor}
    (h : (c.lexemes.map fun p => p.lexeme.text) = d.lexemes.map fun p => p.lexeme.text) :
    c.lexemes.map Placed.lexeme = d.lexemes.map Placed.lexeme := by
  have hread : ∀ c : Cursor, (c.lexemes.map fun p => p.lexeme.text).map Lexeme.read? =
      (c.lexemes.map Placed.lexeme).map fun l => some (l, []) := by
    intro c
    rw [List.map_map, List.map_map]
    exact List.map_congr_left c.read?_text_of_mem_lexemes
  refine List.map_injective_iff.mpr ?_ ((hread c).symm.trans ((congrArg _ h).trans (hread d)))
  intro l l' hl
  simpa using hl

end Cursor

namespace Grammar

/-! ## The pass on lexemes alone -/

namespace Stage

theorem stop_eq (source : List Char) (stage : Stage) (token : Token) (start : Nat) :
    stage.stop source token start =
      if stage = ⟨.operator, 0⟩ ∧ start = byteLength source then .ok ()
      else .error ((stage.fault token).report source start) := by
  unfold stop fault
  split
  · simp [Fault.report]
  · simp [Fault.report]
  · simp [Fault.report]
  · simp [Fault.report]

/-- The verdict on what is left of a source is the one on its lexemes. Their numbers stand for the
places at which they start. -/
theorem judge_eq {source : List Char} {place : Nat → Nat} {ps : List Placed} :
    ∀ (stage : Stage) (index : Nat),
      (∀ i, place (index + i) = (ps[i]?.map Placed.start).getD (byteLength source)) →
      (∀ p ∈ ps, p.start < byteLength source) →
      stage.judge source ps = (stage.assess index (ps.map Placed.lexeme)).mapError
        fun found => found.1.report source (place found.2) := by
  induction ps with
  | nil =>
      intro stage index hplace _
      have hend : place index = byteLength source := hplace 0
      rw [judge, stop_eq, List.map_nil, assess]
      by_cases hs : stage = ⟨.operator, 0⟩
      · simp [hs, Except.mapError]
      · simp [hs, hend, Except.mapError]
  | cons p ps ih =>
      intro stage index hplace hstart
      have hp : place index = p.start := hplace 0
      rw [List.forall_mem_cons] at hstart
      rw [judge, List.map_cons, assess]
      cases stage.advance p.lexeme.token with
      | some next =>
          refine ih next (index + 1) ?_ hstart.2
          intro i
          rw [Nat.add_right_comm, Nat.add_assoc, hplace (i + 1)]
          rfl
      | none =>
          rw [stop_eq, if_neg (fun hend => hstart.1.ne hend.2)]
          simp [hp, Except.mapError]

end Stage

theorem verdictOf_eq (source : String) :
    verdictOf source =
      (Stage.initial.assess 0 ((lexemes source).map Placed.lexeme)).mapError
        fun found => found.1.report source.toList (startOf source found.2) := by
  refine Stage.judge_eq Stage.initial 0 ?_ ?_
  · intro i
    rw [Nat.zero_add, startOf]
  · intro p hp
    obtain ⟨before, after, hsource, hstart, hl⟩ :=
      (Cursor.first source.toList).tiles_lexemes.exists_heads p hp
    have hpos := byteLength_pos hl.text_ne_nil
    have hlength := congrArg byteLength hsource
    simp only [Cursor.first, byteLength_append] at hlength hstart
    omega

/-! ## Sources with the same lexemes -/

/-- Sources whose lexemes have the same texts have the same tree and value, or the same fault at
lexemes of the same number. -/
theorem parse_of_texts_eq {source source' : String}
    (h : ((lexemes source).map fun p => p.lexeme.text) =
      (lexemes source').map fun p => p.lexeme.text) :
    (∃ e, parse source = .ok e ∧ parse source' = .ok e ∧
      evaluate source = .ok e.evaluate ∧ evaluate source' = .ok e.evaluate) ∨
    (∃ (fault : Fault) (index : Nat),
      parse source = .error (.grammar (fault.report source.toList (startOf source index))) ∧
      parse source' = .error (.grammar (fault.report source'.toList (startOf source' index)))) := by
  have hlexemes : (lexemes source).map Placed.lexeme = (lexemes source').map Placed.lexeme :=
    Cursor.lexemes_eq_of_texts_eq h
  have hverdict := verdictOf_eq source
  have hverdict' := verdictOf_eq source'
  rw [← hlexemes] at hverdict'
  cases ha : Stage.initial.assess 0 ((lexemes source).map Placed.lexeme) with
  | error found =>
      rw [ha] at hverdict hverdict'
      exact .inr ⟨found.1, found.2, parse_eq_error_iff.mpr hverdict,
        parse_eq_error_iff.mpr hverdict'⟩
  | ok accepted =>
      rw [ha] at hverdict
      obtain ⟨e, he⟩ := exists_parse_of_verdictOf hverdict
      have he' : parse source' = .ok e := parse_of_derives (hlexemes ▸ derives_of_parse he) le_rfl
      refine .inl ⟨e, he, he', ?_, ?_⟩
      · rw [evaluate, he]
        rfl
      · rw [evaluate, he']
        rfl

/-- Two layouts of a source with an unmatched character in an open group. -/
theorem parse_of_texts_eq_unmatched :
    (((lexemes "1 + (2 # 3").map fun p => p.lexeme.text) =
      (lexemes "1+( 2\n#3 ").map fun p => p.lexeme.text) ∧
    ((∃ e, parse "1 + (2 # 3" = .ok e ∧ parse "1+( 2\n#3 " = .ok e ∧
      evaluate "1 + (2 # 3" = .ok e.evaluate ∧ evaluate "1+( 2\n#3 " = .ok e.evaluate) ∨
    (∃ (fault : Fault) (index : Nat),
      parse "1 + (2 # 3" =
        .error (.grammar (fault.report "1 + (2 # 3".toList (startOf "1 + (2 # 3" index))) ∧
      parse "1+( 2\n#3 " =
        .error (.grammar (fault.report "1+( 2\n#3 ".toList (startOf "1+( 2\n#3 " index))))) :=
  have h : ((lexemes "1 + (2 # 3").map fun p => p.lexeme.text) =
      (lexemes "1+( 2\n#3 ").map fun p => p.lexeme.text := by decide +kernel
  ⟨h, parse_of_texts_eq h⟩

end Grammar

end FourFunction
