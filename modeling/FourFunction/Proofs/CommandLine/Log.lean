import FourFunction.Proofs.CommandLine.Run
import FourFunction.Proofs.Error

/-! What the log of a run tells of the error in its expression. The line that is logged is the message
of the error with the control characters escaped, and only the text that an error quotes can hold any.
So everything else is known from the line, and that text is too unless an escape may be spelled out
in it. -/

namespace FourFunction

open Text

/-! ## Escaped errors -/

/-- An error that quotes its text with the control characters escaped. -/
def SyntaxError.escaped : SyntaxError → SyntaxError
  | missingClosingParen offset => missingClosingParen offset
  | expectedNumberOrParen found offset => expectedNumberOrParen (escapeControls found) offset
  | nestingTooDeep limit offset => nestingTooDeep limit offset
  | unexpectedTrailingInput input offset => unexpectedTrailingInput (escapeControls input) offset

/-- Misuse of the scanner quotes nothing. -/
def ParseError.escaped : ParseError → ParseError
  | scan cause => scan cause
  | grammar cause => grammar cause.escaped

namespace SyntaxError

theorem offset_escaped (e : SyntaxError) : e.escaped.offset = e.offset := by
  cases e <;> rfl

theorem complaint_escaped (e : SyntaxError) :
    e.escaped.complaint = escapeControls e.complaint := by
  cases e with
  | missingClosingParen offset =>
      rw [escaped, complaint_missingClosingParen]
      decide +kernel
  | expectedNumberOrParen found offset =>
      have hbefore : escapeControls "expected number or '(' but found " =
          "expected number or '(' but found " := by decide +kernel
      have hafter : escapeControls "." = "." := by decide +kernel
      rw [escaped, complaint_expectedNumberOrParen, complaint_expectedNumberOrParen,
        escapeControls_append, escapeControls_append, hbefore, hafter]
  | nestingTooDeep limit offset =>
      have hbefore : escapeControls "parentheses nested deeper than " =
          "parentheses nested deeper than " := by decide +kernel
      have hafter : escapeControls " levels." = " levels." := by decide +kernel
      rw [escaped, complaint_nestingTooDeep, escapeControls_append, escapeControls_append, hbefore,
        hafter, escapeControls_repr]
  | unexpectedTrailingInput input offset =>
      have hbefore : escapeControls "unexpected input after expression: " =
          "unexpected input after expression: " := by decide +kernel
      rw [escaped, complaint_unexpectedTrailingInput, complaint_unexpectedTrailingInput,
        escapeControls_append, hbefore]

theorem message_escaped (e : SyntaxError) : e.escaped.message = escapeControls e.message := by
  have hopening : escapeControls "Syntax error at offset " = "Syntax error at offset " := by
    decide +kernel
  have hcolon : escapeControls ": " = ": " := by decide +kernel
  rw [message_eq, message_eq, escapeControls_append, escapeControls_append, escapeControls_append,
    hopening, escapeControls_repr, hcolon, offset_escaped, complaint_escaped]

end SyntaxError

theorem ScanError.escapeControls_message (e : ScanError) :
    escapeControls e.message = e.message := by
  cases e with
  | nothingToPushBack =>
      rw [message_nothingToPushBack]
      decide +kernel
  | doublePushBack offset =>
      have hbefore : escapeControls "Scan error at offset " = "Scan error at offset " := by
        decide +kernel
      have hafter : escapeControls ": only one token can be pushed back." =
          ": only one token can be pushed back." := by decide +kernel
      rw [message_doublePushBack, escapeControls_append, escapeControls_append, hbefore, hafter,
        escapeControls_repr]

namespace ParseError

theorem message_escaped (e : ParseError) : e.escaped.message = escapeControls e.message := by
  cases e with
  | scan cause => exact cause.escapeControls_message.symm
  | grammar cause => exact cause.message_escaped

/-- Two errors are logged alike if they differ only in how controls are written in their texts. -/
theorem escapeControls_message_inj {e e' : ParseError} :
    escapeControls e.message = escapeControls e'.message ↔ e.escaped = e'.escaped := by
  rw [← message_escaped, ← message_escaped, message_inj]

theorem head?_message (e : ParseError) : e.message.toList.head? = some 'S' := by
  cases e with
  | scan cause =>
      change cause.message.toList.head? = _
      cases cause with
      | nothingToPushBack => simp [ScanError.message_nothingToPushBack]
      | doublePushBack offset => simp [ScanError.message_doublePushBack]
  | grammar cause =>
      change cause.message.toList.head? = _
      simp [SyntaxError.toList_message]

end ParseError

namespace CommandLine

/-! ## Logs of runs -/

/-- The expression that a request is about. It stands among the arguments, or it is the text of a
file without the white space at its end. -/
inductive Evaluates (read : String → Except FileError ByteArray) : Request → String → Prop
  | given (debug : Bool) (expression : String) :
      Evaluates read (.calculate debug false expression) expression
  | fromFile (debug : Bool) {path text : String} {bytes : ByteArray} (hread : read path = .ok bytes)
      (htext : String.fromUTF8? bytes = some text) :
      Evaluates read (.calculate debug true path) (trimEnd text)

/-- The logs of failed reads are not those of errors in an expression. -/
theorem escapeControls_readFailure_ne (path : String) (cause : FileError) (e : ParseError) :
    escapeControls (readFailure path cause) ≠ escapeControls e.message := by
  intro h
  have hmessage : readFailure path cause =
      "Failed to read the input file '" ++ path ++ "': " ++ cause.describe := rfl
  have hopening : escapeControls "Failed to read the input file '" =
      "Failed to read the input file '" := by decide +kernel
  rw [← ParseError.message_escaped, hmessage, escapeControls_append, escapeControls_append,
    escapeControls_append, hopening] at h
  have hhead := e.escaped.head?_message
  rw [← h] at hhead
  simp at hhead

namespace Report

variable {read : String → Except FileError ByteArray} {request : Request} {expression : String}

theorem evaluates_file_iff {debug : Bool} {path : String} :
    Evaluates read (.calculate debug true path) expression ↔
      (read path).bind expressionOf = .ok expression := by
  rw [bind_expressionOf_eq_ok_iff]
  constructor
  · intro h
    cases h with
    | fromFile _ hread htext => exact ⟨_, _, hread, htext, rfl⟩
  · rintro ⟨bytes, text, hread, htext, rfl⟩
    exact .fromFile debug hread htext

theorem ofRequest_of_evaluates {debug file : Bool} {contents : String}
    (h : Evaluates read (.calculate debug file contents) expression) :
    ofRequest read (.calculate debug file contents) = ofExpression debug expression := by
  cases file with
  | false =>
      cases h
      rfl
  | true => rw [ofRequest, ofFile, evaluates_file_iff.mp h]

theorem exists_ofExpression_of_evaluates (h : Evaluates read request expression) :
    ∃ debug, ofRequest read request = ofExpression debug expression := by
  cases request with
  | calculate debug file contents => exact ⟨debug, ofRequest_of_evaluates h⟩
  | _ => cases h

theorem logged_ofFile_of_error {contents : Except FileError ByteArray} {e : FileError}
    (h : contents.bind expressionOf = .error e) (debug : Bool) (path : String) :
    (ofFile debug path contents).logged = some (escapeControls (readFailure path e)) :=
  congrArg (·.2.2) (outcome_ofFile_of_error h debug path)

/-- A run without an expression logs nothing, or that it could not read a file. -/
theorem ofRequest_cases (read : String → Except FileError ByteArray) (request : Request) :
    (ofRequest read request).logged = none ∨
      (∃ path cause,
        (ofRequest read request).logged = some (escapeControls (readFailure path cause))) ∨
      ∃ expression, Evaluates read request expression := by
  cases request with
  | help => exact .inl rfl
  | version => exact .inl rfl
  | misuse => exact .inl rfl
  | calculate debug file contents =>
      cases file with
      | false => exact .inr (.inr ⟨contents, .given debug contents⟩)
      | true =>
          cases h : (read contents).bind expressionOf with
          | error cause =>
              exact .inr (.inl ⟨contents, cause, logged_ofFile_of_error h debug contents⟩)
          | ok expression => exact .inr (.inr ⟨expression, evaluates_file_iff.mpr h⟩)

theorem logged_ofExpression_eq_some_iff {debug : Bool} {line : String} :
    (ofExpression debug expression).logged = some line ↔
      ∃ cause, calculate expression = .error cause ∧ escapeControls cause.message = line := by
  cases h : calculate expression with
  | ok c =>
      have hlogged := congrArg (·.2.2) (outcome_ofExpression_of_ok h debug)
      simp_all [outcome]
  | error cause =>
      have hlogged := congrArg (·.2.2) (outcome_ofExpression_of_error h debug)
      simp_all [outcome]

/-- The line of an error is logged by the runs whose expression has this error, up to how controls
are written in its text. -/
theorem logged_eq_message_iff (e : ParseError) :
    (ofRequest read request).logged = some (escapeControls e.message) ↔
      ∃ expression cause, Evaluates read request expression ∧ calculate expression = .error cause ∧
        cause.escaped = e.escaped := by
  constructor
  · intro h
    rcases ofRequest_cases read request with hnone | ⟨path, cause, hread⟩ | ⟨expression, hevaluates⟩
    · rw [hnone] at h
      simp at h
    · rw [hread] at h
      exact absurd (Option.some.inj h) (escapeControls_readFailure_ne path cause e)
    · obtain ⟨debug, hreport⟩ := exists_ofExpression_of_evaluates hevaluates
      rw [hreport] at h
      obtain ⟨cause, hcause, hline⟩ := logged_ofExpression_eq_some_iff.mp h
      exact ⟨expression, cause, hevaluates, hcause, ParseError.escapeControls_message_inj.mp hline⟩
  · rintro ⟨expression, cause, hevaluates, hcause, hescaped⟩
    obtain ⟨debug, hreport⟩ := exists_ofExpression_of_evaluates hevaluates
    rw [hreport]
    exact logged_ofExpression_eq_some_iff.mpr
      ⟨cause, hcause, ParseError.escapeControls_message_inj.mpr hescaped⟩

/-! ## Traces of runs -/

/-- A debug run traces that it is one, and then what the calculator traces of its expression. -/
theorem trace_of_evaluates {debug file : Bool} {contents : String}
    (h : Evaluates read (.calculate debug file contents) expression) :
    (ofRequest read (.calculate debug file contents)).trace =
      if debug then #[.debugMode] ++ (evaluationEvents expression).map .event else #[] := by
  rw [ofRequest_of_evaluates h, ofExpression]
  cases calculate expression <;> cases debug <;> rfl

/-- Without an expression nothing more is traced. -/
theorem trace_of_not_evaluates {debug file : Bool} {contents : String}
    (h : ∀ expression, ¬ Evaluates read (.calculate debug file contents) expression) :
    (ofRequest read (.calculate debug file contents)).trace =
      if debug then #[.debugMode] else #[] := by
  cases file with
  | false => exact absurd (.given debug contents) (h contents)
  | true =>
      cases hread : (read contents).bind expressionOf with
      | ok expression => exact absurd (evaluates_file_iff.mpr hread) (h expression)
      | error cause =>
          rw [ofRequest, ofFile, hread]
          cases debug with
          | false => rfl
          | true =>
              change #[Notice.debugMode] ++ Array.map Notice.event #[] = #[Notice.debugMode]
              simp

end Report

/-! ## Results -/

/-- What is known of two errors from their messages and from the lines that are logged for them. A
message belongs to one error. A line belongs to one family, kind, offset and limit, and to the texts
that are the same once they are escaped, of which at most one is without backslashes. -/
structure ToldApart (e e' : ParseError) : Prop where
  message : e.message = e'.message ↔ e = e'
  line : escapeControls e.message = escapeControls e'.message ↔ e.escaped = e'.escaped
  withoutBackslash : '\\' ∉ e.message.toList → '\\' ∉ e'.message.toList →
    (escapeControls e.message = escapeControls e'.message ↔ e = e')

/-- Errors are told apart by their messages, and runs that log the line of an error are those whose
expression has it, or one that differs from it only in how controls are written in its text: five
characters and the upper controls, each by its code. -/
theorem identifiesErrors :
    (∀ e e' : ParseError, ToldApart e e') ∧
    (∀ read args (e : ParseError), (run read args).logged = some (escapeControls e.message) ↔
      ∃ expression cause, Evaluates read (Request.ofArguments args) expression ∧
        calculate expression = .error cause ∧ cause.escaped = e.escaped) ∧
    ∀ message line : String,
      Escapes message.toList line.toList ↔ escapeControls message = line := by
  refine ⟨fun e e' => ?_, fun read args e => Report.logged_eq_message_iff e,
    fun message line => escapes_iff⟩
  refine ⟨ParseError.message_inj, ParseError.escapeControls_message_inj, ?_⟩
  intro he he'
  constructor
  · intro h
    exact ParseError.message_inj.mp (eq_of_escapeControls_eq he he' h)
  · rintro rfl
    rfl

/-- Two controls that are escaped differently. -/
theorem identifiesErrors_controls :
    '\\' ∉ (ParseError.grammar (.unexpectedTrailingInput "\x07" 1)).message.toList ∧
      '\\' ∉ (ParseError.grammar (.unexpectedTrailingInput "\x1b" 1)).message.toList ∧
      escapeControls (ParseError.grammar (.unexpectedTrailingInput "\x07" 1)).message ≠
        escapeControls (ParseError.grammar (.unexpectedTrailingInput "\x1b" 1)).message := by
  have hbell : '\\' ∉
      (ParseError.grammar (.unexpectedTrailingInput "\x07" 1)).message.toList := by decide +kernel
  have hescape : '\\' ∉
      (ParseError.grammar (.unexpectedTrailingInput "\x1b" 1)).message.toList := by decide +kernel
  refine ⟨hbell, hescape, fun h => ?_⟩
  have hsame := ((identifiesErrors.1 _ _).withoutBackslash hbell hescape).mp h
  revert hsame
  decide

/-- After a complete expression a backspace is logged like its escape spelled out. -/
theorem run_logs_alike :
    calculate "2*3 \x08" = .error (.grammar (.unexpectedTrailingInput "\x08" 4)) ∧
      calculate "2*3 \\x08" = .error (.grammar (.unexpectedTrailingInput "\\x08" 4)) ∧
      ParseError.grammar (.unexpectedTrailingInput "\x08" 4) ≠
        ParseError.grammar (.unexpectedTrailingInput "\\x08" 4) ∧
      (run (fun _ => .error .notFound) ["2*3 \x08"]).logged =
        (run (fun _ => .error .notFound) ["2*3 \\x08"]).logged := by
  have hraw : calculate "2*3 \x08" = .error (.grammar (.unexpectedTrailingInput "\x08" 4)) :=
    calculate_eq_error_iff.mpr (Grammar.parse_eq_error_iff.mpr (by decide +kernel))
  have hspelled : calculate "2*3 \\x08" = .error (.grammar (.unexpectedTrailingInput "\\x08" 4)) :=
    calculate_eq_error_iff.mpr (Grammar.parse_eq_error_iff.mpr (by decide +kernel))
  refine ⟨hraw, hspelled, by decide, ?_⟩
  change (Report.ofExpression false "2*3 \x08").logged =
    (Report.ofExpression false "2*3 \\x08").logged
  rw [Report.ofExpression, Report.ofExpression, hraw, hspelled]
  decide +kernel

end CommandLine

end FourFunction
