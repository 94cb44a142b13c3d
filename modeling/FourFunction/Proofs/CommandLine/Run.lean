import FourFunction.CommandLine.Report
import FourFunction.Proofs.CommandLine.Request
import FourFunction.Proofs.Decimal.Layout
import FourFunction.Proofs.Escape
import FourFunction.Proofs.Grammar.Exactness

/-! The command line gives what the calculator gives for the text it is asked to evaluate, whether the
text stands among the arguments or in a file. -/

namespace FourFunction

open Text Grammar

/-! ## White space at the end of a source -/

namespace Text

theorem isWhiteSpace_iff {c : Char} : isWhiteSpace c ↔ c ∈ whiteSpace := by
  have hcodes : whiteSpace.map Char.toNat =
      [0x9, 0xa, 0xb, 0xc, 0xd, 0x20, 0x85, 0xa0, 0x1680, 0x2000, 0x2001, 0x2002, 0x2003, 0x2004,
        0x2005, 0x2006, 0x2007, 0x2008, 0x2009, 0x200a, 0x2028, 0x2029, 0x202f, 0x205f,
        0x3000] := rfl
  have hmap : c ∈ whiteSpace ↔ c.toNat ∈ whiteSpace.map Char.toNat :=
    (List.mem_map_of_injective fun _ _ => Char.toNat_inj.mp).symm
  rw [hmap, hcodes]
  simp only [isWhiteSpace, whiteSpaceRanges, List.any_cons, List.any_nil, Bool.or_eq_true,
    Bool.and_eq_true, decide_eq_true_eq, Bool.or_false, List.mem_cons, List.not_mem_nil, or_false]
  omega

/-- What is left of a text without the longest run of white space at its end. -/
structure TrimsEnd (text trimmed : String) : Prop where
  exists_append : ∃ lost, lost ⊆ whiteSpace ∧ trimmed.toList ++ lost = text.toList
  last : ∀ c ∈ trimmed.toList.getLast?, c ∉ whiteSpace

theorem trimsEnd_trimEnd (text : String) : TrimsEnd text (trimEnd text) where
  exists_append := by
    refine ⟨(text.toList.reverse.takeWhile isWhiteSpace).reverse, ?_, ?_⟩
    · intro c hc
      exact isWhiteSpace_iff.mp (List.mem_takeWhile_imp (List.mem_reverse.mp hc))
    · rw [trimEnd, String.toList_ofList, dropTrailing_append]
  last := by
    intro c hc
    rw [trimEnd, String.toList_ofList] at hc
    rw [← isWhiteSpace_iff, eq_false_of_mem_getLast?_dropTrailing hc]
    decide

theorem trimsEnd_iff {text trimmed : String} : TrimsEnd text trimmed ↔ trimEnd text = trimmed := by
  constructor
  · rintro ⟨⟨lost, hlost, htext⟩, hlast⟩
    have hwhite : ∀ c ∈ lost, isWhiteSpace c := fun c hc => isWhiteSpace_iff.mpr (hlost hc)
    have hkept : ∀ c ∈ trimmed.toList.getLast?, isWhiteSpace c = false := by
      intro c hc
      rw [← Bool.not_eq_true, isWhiteSpace_iff]
      exact hlast c hc
    rw [trimEnd, ← htext, dropTrailing_append_of_pos hwhite, dropTrailing_eq_self hkept,
      String.ofList_toList]
  · rintro rfl
    exact trimsEnd_trimEnd text

theorem isWhiteSpace_of_isDigit {c : Char} (h : c.isDigit) : isWhiteSpace c = false := by
  obtain ⟨hlower, hupper⟩ := Char.isDigit_iff_toNat.mp h
  have hzero : '0'.toNat = 48 := rfl
  have hnine : '9'.toNat = 57 := rfl
  rw [← Bool.not_eq_true]
  simp only [isWhiteSpace, whiteSpaceRanges, List.any_cons, List.any_nil, Bool.or_eq_true,
    Bool.and_eq_true, decide_eq_true_eq, Bool.or_false]
  omega

end Text

theorem Symbol.isWhiteSpace_toChar (s : Symbol) : isWhiteSpace s.toChar = false := by
  rcases s with (_ | _ | _ | _) | _ | _ <;> decide

theorem Lexeme.Proper.isWhiteSpace_eq_false {l : Lexeme} (h : l.Proper) :
    ∀ c ∈ l.text, isWhiteSpace c = false := by
  intro c hc
  cases l with
  | numeral n =>
      rcases Numeral.Proper.isDigit_or_point h c hc with hdigit | rfl
      · exact isWhiteSpace_of_isDigit hdigit
      · decide
  | symbol s =>
      rw [List.mem_singleton.mp hc]
      exact s.isWhiteSpace_toChar
  | unmatched u => exact h.elim

/-- Blanks are white space and lexemes are not, so nothing but blanks is lost at the end. -/
theorem Splits.dropTrailing {ls : List Lexeme} {cs : List Char} (h : Splits ls cs) :
    Splits ls (dropTrailing isWhiteSpace cs) := by
  induction h with
  | @blank gap hgap =>
      refine .blank fun c hc => hgap ?_
      rw [← dropTrailing_append isWhiteSpace gap]
      exact List.mem_append_left _ hc
  | @lexeme gap cs l ls hgap hl _ ih =>
      obtain ⟨init, last, htext⟩ := (List.eq_nil_or_concat' l.text).resolve_left (by
        obtain ⟨c, cs, htext, -⟩ := hl.exists_text_eq_cons
        simp [htext])
      have hlast : isWhiteSpace last = false := hl.isWhiteSpace_eq_false last (by simp [htext])
      have hkept := dropTrailing_append_cons hlast (gap ++ init) cs
      have hsplits := Splits.lexeme hgap hl ih
      rw [htext, ← List.append_assoc, List.append_assoc, List.singleton_append] at hsplits ⊢
      rwa [hkept]

theorem Grammar.parse_trimEnd {source : String} {e : Expr} (h : parse source = .ok e) :
    parse (trimEnd source) = .ok e := by
  have hsplits : Splits ((lexemes source).map Placed.lexeme) (trimEnd source).toList := by
    rw [trimEnd, String.toList_ofList]
    exact (splits_of_parse h).dropTrailing
  exact parse_of_splits hsplits (derives_of_parse h) le_rfl

/-- A source that is accepted as it is has the same value without the white space at its end. -/
theorem calculate_trimEnd {source : String} {c : Calculation} (h : calculate source = .ok c) :
    calculate (trimEnd source) = .ok ⟨trimEnd source, c.value⟩ := by
  obtain ⟨e, he, rfl⟩ := exists_parse_of_calculate h
  exact calculate_of_parse (parse_trimEnd he)

namespace CommandLine

/-! ## What a run shows -/

theorem fromUTF8?_toUTF8 (text : String) : String.fromUTF8? text.toUTF8 = some text :=
  dif_pos text.isValidUTF8

/-- What is seen of a run besides its trace: the exit code, the output and the logged message. -/
def Report.outcome (r : Report) : Nat × String × Option String :=
  (r.code, r.stdout, r.logged)

/-- The message of a run that cannot have the text of a file. -/
def readFailure (path : String) (e : FileError) : String :=
  "Failed to read the input file '" ++ path ++ "': " ++ e.describe

namespace Report

@[simp] theorem outcome_traced (debug : Bool) (events : Array Event) (report : Report) :
    (traced debug events report).outcome = report.outcome := by
  cases debug <;> rfl

/-- The expression of a file is its text without the white space at its end. -/
theorem bind_expressionOf_eq_ok_iff {contents : Except FileError ByteArray} {expression : String} :
    contents.bind expressionOf = .ok expression ↔ ∃ bytes text, contents = .ok bytes ∧
      String.fromUTF8? bytes = some text ∧ trimEnd text = expression := by
  cases contents with
  | error e => simp [Except.bind]
  | ok bytes => cases h : String.fromUTF8? bytes <;> simp [Except.bind, expressionOf, h]

theorem bind_expressionOf_of_eq_none {bytes : ByteArray} (h : String.fromUTF8? bytes = none) :
    (Except.ok bytes).bind expressionOf = .error .notUtf8 := by
  simp [Except.bind, expressionOf, h]

theorem outcome_ofExpression_of_ok {expression : String} {c : Calculation}
    (h : calculate expression = .ok c) (debug : Bool) :
    (ofExpression debug expression).outcome = (0, c.line ++ "\n", none) := by
  rw [ofExpression, h]
  exact outcome_traced debug _ _

theorem outcome_ofExpression_of_error {expression : String} {cause : ParseError}
    (h : calculate expression = .error cause) (debug : Bool) :
    (ofExpression debug expression).outcome = (1, "", some (escapeControls cause.message)) := by
  rw [ofExpression, h]
  exact outcome_traced debug _ _

theorem outcome_ofExpression (debug debug' : Bool) (expression : String) :
    (ofExpression debug expression).outcome = (ofExpression debug' expression).outcome := by
  cases h : calculate expression with
  | ok c => rw [outcome_ofExpression_of_ok h, outcome_ofExpression_of_ok h]
  | error cause => rw [outcome_ofExpression_of_error h, outcome_ofExpression_of_error h]

theorem outcome_ofFile_of_error {contents : Except FileError ByteArray} {e : FileError}
    (h : contents.bind expressionOf = .error e) (debug : Bool) (path : String) :
    (ofFile debug path contents).outcome = (1, "", some (escapeControls (readFailure path e))) := by
  rw [ofFile, h]
  exact outcome_traced debug _ _

theorem outcome_ofFile (debug debug' : Bool) (path : String)
    (contents : Except FileError ByteArray) :
    (ofFile debug path contents).outcome = (ofFile debug' path contents).outcome := by
  cases h : contents.bind expressionOf with
  | ok expression =>
      rw [ofFile, ofFile, h]
      exact outcome_ofExpression debug debug' expression
  | error e => rw [outcome_ofFile_of_error h, outcome_ofFile_of_error h]

/-- Only the file flag and the text matter for what is seen of a run. -/
theorem outcome_ofRequest_given (read : String → Except FileError ByteArray) {flags flags' : List Flag}
    (h : Flag.fromFile ∈ flags' ↔ Flag.fromFile ∈ flags) (contents : String) :
    (ofRequest read (Request.given flags' contents)).outcome =
      (ofRequest read (Request.given flags contents)).outcome := by
  have hcontains : flags'.contains .fromFile = flags.contains .fromFile := by
    rw [Bool.eq_iff_iff, List.contains_iff_mem, List.contains_iff_mem, h]
  rw [Request.given, Request.given, hcontains]
  cases flags.contains .fromFile with
  | true => exact outcome_ofFile _ _ _ _
  | false => exact outcome_ofExpression _ _ _

end Report

/-! ## Results -/

section

variable {read : String → Except FileError ByteArray} {args : List String} {flags : List Flag}
  {contents : String}

theorem run_eq_ofExpression (h : Gives args flags [contents]) (hflags : flags.Nodup)
    (hfile : Flag.fromFile ∉ flags) :
    run read args = Report.ofExpression (flags.contains .debug) contents := by
  have hcontains : flags.contains Flag.fromFile = false := by
    rw [← Bool.not_eq_true, List.contains_iff_mem]
    exact hfile
  rw [run, Request.ofArguments_of_gives h hflags, Request.given, hcontains]
  rfl

theorem run_eq_ofFile (h : Gives args flags [contents]) (hflags : flags.Nodup)
    (hfile : Flag.fromFile ∈ flags) :
    run read args = Report.ofFile (flags.contains .debug) contents (read contents) := by
  have hcontains : flags.contains Flag.fromFile = true := List.contains_iff_mem.mpr hfile
  rw [run, Request.ofArguments_of_gives h hflags, Request.given, hcontains]
  rfl

/-- What is seen of a run whose arguments give one text and no flag twice. It is what the calculator
gives for the text, or for the text of the file that it names without the white space at its end.
Messages are logged with their control characters escaped. -/
structure RunsCalculator (read : String → Except FileError ByteArray) (args : List String)
    (flags : List Flag) (contents : String) : Prop where
  request : Request.ofArguments args =
    .calculate (flags.contains .debug) (flags.contains .fromFile) contents
  same : ∀ args' flags', Gives args' flags' [contents] → flags'.Nodup →
    (Flag.fromFile ∈ flags' ↔ Flag.fromFile ∈ flags) →
    (run read args').outcome = (run read args).outcome
  printed : Flag.fromFile ∉ flags → ∀ c, calculate contents = .ok c →
    (run read args).outcome = (0, c.line ++ "\n", none)
  logged : Flag.fromFile ∉ flags → ∀ cause, calculate contents = .error cause →
    (run read args).outcome = (1, "", some (escapeControls cause.message))
  fromFile : Flag.fromFile ∈ flags → ∀ bytes text, read contents = .ok bytes →
    String.fromUTF8? bytes = some text → ∀ args' flags', Gives args' flags' [trimEnd text] →
    flags'.Nodup → Flag.fromFile ∉ flags' → (run read args).outcome = (run read args').outcome
  unreadable : Flag.fromFile ∈ flags → ∀ e, read contents = .error e →
    (run read args).outcome = (1, "", some (escapeControls (readFailure contents e)))
  notUtf8 : Flag.fromFile ∈ flags → ∀ bytes, read contents = .ok bytes →
    String.fromUTF8? bytes = none →
    (run read args).outcome = (1, "", some (escapeControls (readFailure contents .notUtf8)))

theorem runsCalculator_of_gives (h : Gives args flags [contents]) (hflags : flags.Nodup) :
    RunsCalculator read args flags contents where
  request := Request.ofArguments_of_gives h hflags
  same := by
    intro args' flags' h' hflags' hfile
    rw [run, run, Request.ofArguments_of_gives h hflags, Request.ofArguments_of_gives h' hflags']
    exact Report.outcome_ofRequest_given read hfile contents
  printed := by
    intro hfile c hc
    rw [run_eq_ofExpression h hflags hfile]
    exact Report.outcome_ofExpression_of_ok hc _
  logged := by
    intro hfile cause hcause
    rw [run_eq_ofExpression h hflags hfile]
    exact Report.outcome_ofExpression_of_error hcause _
  fromFile := by
    intro hfile bytes text hread htext args' flags' h' hflags' hdirect
    rw [run_eq_ofFile h hflags hfile, run_eq_ofExpression h' hflags' hdirect, Report.ofFile,
      Report.bind_expressionOf_eq_ok_iff.mpr ⟨bytes, text, hread, htext, rfl⟩]
    exact Report.outcome_ofExpression _ _ _
  unreadable := by
    intro hfile e hread
    rw [run_eq_ofFile h hflags hfile, hread]
    exact Report.outcome_ofFile_of_error rfl _ _
  notUtf8 := by
    intro hfile bytes hread htext
    rw [run_eq_ofFile h hflags hfile, hread]
    exact Report.outcome_ofFile_of_error (Report.bind_expressionOf_of_eq_none htext) _ _

end

/-- The command line runs the calculator on the text it is given. The white space that files lose at
their end does not matter to the calculator. It is that of Unicode, and all of it is lost. Only
messages with control characters are logged otherwise than they are: five characters and the upper
controls, each by its code. -/
theorem runsCalculator :
    (∀ read args flags contents, Gives args flags [contents] → flags.Nodup →
      RunsCalculator read args flags contents) ∧
    (∀ source c, calculate source = .ok c →
      calculate (trimEnd source) = .ok ⟨trimEnd source, c.value⟩) ∧
    (∀ message : String,
      (∀ c ∈ message.toList, isTerminalControl c = false ∧ isUpperControl c = false) →
      escapeControls message = message) ∧
    (∀ text trimmed : String, TrimsEnd text trimmed ↔ trimEnd text = trimmed) ∧
    ∀ message line : String,
      Escapes message.toList line.toList ↔ escapeControls message = line := by
  refine ⟨?_, ?_, ?_, fun text trimmed => trimsEnd_iff, fun message line => escapes_iff⟩
  · intro read args flags contents h hflags
    exact runsCalculator_of_gives h hflags
  · intro source c h
    exact calculate_trimEnd h
  · intro message h
    exact escapeControls_eq_self h

/-- A file that ends with a tab and a line feed is run as the sum in it is. -/
theorem runsCalculator_sum :
    Gives ["-fd", "--", "sum"] [.fromFile, .debug] ["sum"] ∧
      (run (fun _ => .ok "1 + 2\t\n".toUTF8) ["-fd", "--", "sum"]).outcome =
        (run (fun _ => .ok "1 + 2\t\n".toUTF8) ["1 + 2"]).outcome ∧
      ∃ c, calculate "1 + 2\t\n" = .ok c ∧ calculate "1 + 2" = .ok ⟨"1 + 2", c.value⟩ := by
  have hgives : Gives ["-fd", "--", "sum"] [.fromFile, .debug] ["sum"] :=
    .word (.short .fromFile [.debug]) (.ended ["sum"])
  have htrimmed : trimEnd "1 + 2\t\n" = "1 + 2" := by decide +kernel
  have hdirect : Gives ["1 + 2"] [] [trimEnd "1 + 2\t\n"] := by
    rw [htrimmed]
    exact .word (.text (.inr (by simp))) .nil
  obtain ⟨e, he⟩ := exists_parse_of_verdictOf
    (show verdictOf "1 + 2\t\n" = .ok () by decide +kernel)
  have hc := calculate_of_parse he
  have hruns := runsCalculator.1 (fun _ => .ok "1 + 2\t\n".toUTF8) _ _ _ hgives (by decide)
  refine ⟨hgives, ?_, _, hc, ?_⟩
  · exact hruns.fromFile (by simp) _ _ rfl (fromUTF8?_toUTF8 _) _ _ hdirect .nil (by simp)
  · rw [← htrimmed]
    exact runsCalculator.2.1 _ _ hc

/-- A message with an escape character in it is not logged as it is. -/
theorem run_logs_escaped :
    Gives ["1\x1b"] [] ["1\x1b"] ∧
      calculate "1\x1b" = .error (.grammar (.unexpectedTrailingInput "\x1b" 1)) ∧
      (run (fun _ => .error .notFound) ["1\x1b"]).logged =
        some "Syntax error at offset 1: unexpected input after expression: \\x1b" ∧
      (run (fun _ => .error .notFound) ["1\x1b"]).logged ≠
        some (ParseError.grammar (.unexpectedTrailingInput "\x1b" 1)).message := by
  have hgives : Gives ["1\x1b"] [] ["1\x1b"] := by
    refine .word (.text (.inr ?_)) .nil
    simp
  have herror : calculate "1\x1b" = .error (.grammar (.unexpectedTrailingInput "\x1b" 1)) :=
    calculate_eq_error_iff.mpr (parse_eq_error_iff.mpr (by decide +kernel))
  have hlogged : (run (fun _ => .error .notFound) ["1\x1b"]).logged =
      some "Syntax error at offset 1: unexpected input after expression: \\x1b" := by
    rw [run_eq_ofExpression hgives .nil (List.not_mem_nil), Report.ofExpression, herror]
    decide +kernel
  refine ⟨hgives, herror, hlogged, ?_⟩
  rw [hlogged]
  decide +kernel

end CommandLine

end FourFunction
