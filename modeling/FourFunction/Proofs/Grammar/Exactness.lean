import FourFunction.Proofs.Cursor.Splits
import FourFunction.Proofs.Grammar.Verdict
import FourFunction.Proofs.Precedence

/-! The parser accepts exactly the sources that split into derivable lexemes, and gives the derived
tree. -/

namespace FourFunction.Grammar

open Cursor (Reads)

/-! ## Parsed sources are derived -/

/-- A parsed source consists of matched lexemes up to its end, and they derive its tree. -/
theorem reads_of_parse {source : String} {e : Expr} (h : parse source = .ok e) :
    ∃ last, Reads (Cursor.first source.toList) (lexemes source) last ∧
      last.skipBlanks.rest = [] ∧
      Derives maxNesting .expression ((lexemes source).map Placed.lexeme) e := by
  have ⟨ps, hps, hderives⟩ := expression_sound 0 (Scanner.ofSource source)
  rw [parse] at h
  rcases input_cases (Scanner.ofSource source) with
    ⟨cause, hc, hrun⟩ | ⟨e', he, hx, hrun⟩ | ⟨e', he, hx, hrun⟩
  · simp [hrun, hc] at h
  · rw [hrun] at h
    obtain rfl := Except.ok.inj h
    have hnil := List.isEmpty_iff.mp hx
    have hlex : lexemes source = ps := by
      have hall := hps.lexemes_eq
      rw [Cursor.lexemes_of_read?_eq_none ((Cursor.read?_eq_none_iff _).mpr hnil),
        List.append_nil] at hall
      exact hall
    rw [hlex]
    exact ⟨_, hps, hnil, hderives e' he⟩
  · simp [hrun] at h

theorem derives_of_parse {source : String} {e : Expr} (h : parse source = .ok e) :
    Derives maxNesting .expression ((lexemes source).map Placed.lexeme) e := by
  obtain ⟨last, -, -, hd⟩ := reads_of_parse h
  exact hd

/-! ## Derived lexemes are accepted -/

/-- The stage after lexemes, if each of them may come next in turn. -/
def Stage.through (stage : Stage) (ls : List Lexeme) : Option Stage :=
  ls.foldlM (fun stage l => stage.advance l.token) stage

theorem Stage.through_cons (stage : Stage) (l : Lexeme) (ls : List Lexeme) :
    stage.through (l :: ls) = (stage.advance l.token).bind (·.through ls) :=
  List.foldlM_cons

theorem Stage.through_append (stage : Stage) (ls ms : List Lexeme) :
    stage.through (ls ++ ms) = (stage.through ls).bind (·.through ms) :=
  List.foldlM_append

theorem Stage.through_leftParen {opened : Nat} (h : opened < maxNesting) (ls : List Lexeme) :
    Stage.through ⟨.operand, opened⟩ (.symbol .leftParen :: ls) =
      Stage.through ⟨.operand, opened + 1⟩ ls := by
  rw [Stage.through_cons]
  change (if opened = maxNesting then none else some (Stage.mk .operand (opened + 1))).bind _ = _
  rw [if_neg h.ne]
  rfl

theorem Stage.through_operator (opened : Nat) (op : Operator) (ls : List Lexeme) :
    Stage.through ⟨.operator, opened⟩ (.symbol (.operator op) :: ls) =
      Stage.through ⟨.operand, opened⟩ ls := by
  rw [Stage.through_cons]
  cases opened <;> rfl

/-- Derived lexemes take the pass from an operand to the operator after it, if the groups they open
may all be opened. -/
theorem Derives.through {groups : Nat} {category : Category} {ls : List Lexeme} {e : Expr}
    (h : Derives groups category ls e) :
    ∀ opened, opened + groups ≤ maxNesting →
      Stage.through ⟨.operand, opened⟩ ls = some ⟨.operator, opened⟩ := by
  induction h with
  | number n =>
      intro opened _
      rfl
  | @group groups ls e _ ih =>
      intro opened ho
      rw [List.cons_append, Stage.through_leftParen (by omega), Stage.through_append,
        ih (opened + 1) (by omega)]
      rfl
  | factor _ ih => exact ih
  | product _ _ _ ihl ihr =>
      intro opened ho
      rw [Stage.through_append, ihl opened ho, Option.bind_some, Stage.through_operator]
      exact ihr opened ho
  | term _ ih => exact ih
  | sum _ _ _ ihl ihr =>
      intro opened ho
      rw [Stage.through_append, ihl opened ho, Option.bind_some, Stage.through_operator]
      exact ihr opened ho

theorem Stage.judge_append (source : List Char) {stage next : Stage} {ps : List Placed}
    (h : stage.through (ps.map Placed.lexeme) = some next) (qs : List Placed) :
    stage.judge source (ps ++ qs) = next.judge source qs := by
  induction ps generalizing stage with
  | nil =>
      obtain rfl := Option.some.inj h
      rfl
  | cons p ps ih =>
      rw [List.map_cons, Stage.through_cons] at h
      obtain ⟨mid, hmid, hrest⟩ := Option.bind_eq_some_iff.mp h
      rw [List.cons_append, Stage.judge, hmid]
      exact ih hrest

theorem verdictOf_of_through {source : String}
    (h : Stage.initial.through ((lexemes source).map Placed.lexeme) = some ⟨.operator, 0⟩) :
    verdictOf source = .ok () := by
  have hrun := Stage.judge_append source.toList h []
  rw [List.append_nil] at hrun
  rw [verdictOf, hrun]
  exact if_pos rfl

/-- The pass accepts a source whose lexemes are derived. -/
theorem verdictOf_of_derives {source : String} {groups : Nat} {e : Expr}
    (h : Derives groups .expression ((lexemes source).map Placed.lexeme) e)
    (hg : groups ≤ maxNesting) : verdictOf source = .ok () :=
  verdictOf_of_through (h.through 0 (by omega))

theorem exists_parse_of_verdictOf {source : String} (h : verdictOf source = .ok ()) :
    ∃ e, parse source = .ok e := by
  have hrun := parse_map source
  cases hp : parse source with
  | ok e => exact ⟨e, rfl⟩
  | error cause => simp [hp, h, Except.map, Except.mapError] at hrun

/-- A source whose lexemes derive a tree is parsed to that tree. -/
theorem parse_of_derives {source : String} {groups : Nat} {e : Expr}
    (h : Derives groups .expression ((lexemes source).map Placed.lexeme) e)
    (hg : groups ≤ maxNesting) : parse source = .ok e := by
  obtain ⟨e', he'⟩ := exists_parse_of_verdictOf (verdictOf_of_derives h hg)
  rw [he', (derives_of_parse he').eq_of_derives h]

/-! ## Splits of a source -/

/-- No two numerals stand side by side in derived lexemes. -/
theorem Derives.isChain_apart {groups : Nat} {category : Category} {ls : List Lexeme} {e : Expr}
    (h : Derives groups category ls e) : ls.IsChain Lexeme.Apart := by
  induction h with
  | number n => exact .singleton _
  | group _ ih =>
      simp [List.isChain_append, List.isChain_cons, ih]
  | factor _ ih => exact ih
  | product _ _ _ ihl ihr =>
      simp [List.isChain_append, List.isChain_cons, ihl, ihr]
  | term _ ih => exact ih
  | sum _ _ _ ihl ihr =>
      simp [List.isChain_append, List.isChain_cons, ihl, ihr]

/-- Derivable lexemes into which a source splits are those that reading finds. -/
theorem eq_lexemes_of_splits {source : String} {groups : Nat} {category : Category}
    {ls : List Lexeme} {e : Expr} (hs : Splits ls source.toList)
    (hd : Derives groups category ls e) : ls = (lexemes source).map Placed.lexeme := by
  obtain ⟨ps, last, hps, rfl, hlast⟩ :=
    Cursor.exists_reads_of_splits (c := Cursor.first source.toList) hs hd.isChain_apart
  rw [lexemes, hps.lexemes_eq, hlast, List.append_nil]

theorem splits_of_parse {source : String} {e : Expr} (h : parse source = .ok e) :
    Splits ((lexemes source).map Placed.lexeme) source.toList := by
  obtain ⟨last, hreads, hlast, -⟩ := reads_of_parse h
  exact hreads.splits hlast

theorem parse_of_splits {source : String} {groups : Nat} {ls : List Lexeme} {e : Expr}
    (hs : Splits ls source.toList) (hd : Derives groups .expression ls e)
    (hg : groups ≤ maxNesting) : parse source = .ok e := by
  rw [eq_lexemes_of_splits hs hd] at hd
  exact parse_of_derives hd hg

/-- A source is parsed to a tree exactly if the whole of it splits into lexemes that derive the
tree with no more than `maxNesting` groups open at once. There is no other such split, and no
lexemes derive two trees. -/
theorem parse_exact (source : String) :
    (∀ e, parse source = .ok e ↔
      ∃ ls, Splits ls source.toList ∧ Derives maxNesting .expression ls e) ∧
    (∀ ls e, Splits ls source.toList → Derives maxNesting .expression ls e →
      ls = (lexemes source).map Placed.lexeme) ∧
    (∀ groups category ls e e', Derives groups category ls e → Derives groups category ls e' →
      e = e') := by
  refine ⟨?_, ?_, ?_⟩
  · intro e
    constructor
    · intro h
      obtain ⟨last, hreads, hlast, hd⟩ := reads_of_parse h
      exact ⟨_, hreads.splits hlast, hd⟩
    · intro h
      obtain ⟨ls, hs, hd⟩ := h
      rw [eq_lexemes_of_splits hs hd] at hd
      exact parse_of_derives hd le_rfl
  · intro ls e hs hd
    exact eq_lexemes_of_splits hs hd
  · intro groups category ls e e' h h'
    exact h.eq_of_derives h'

end FourFunction.Grammar
