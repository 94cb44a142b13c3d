import FourFunction.Calculation
import FourFunction.CommandLine.Directory
import FourFunction.CommandLine.Request
import FourFunction.Text.Escape
import FourFunction.Text.WhiteSpace
import FourFunction.Trace

/-! What the program does for a request: its exit code, its output and what it logs. -/

namespace FourFunction.CommandLine

/-- What a debug run traces: that it is one, and then the events of the calculator. -/
inductive Notice where
  | debugMode
  | event (e : Event)

def Notice.line : Notice → String
  | debugMode => "debug mode"
  | event e => e.line

structure Report where
  code : Nat
  stdout : String
  logged : Option String
  trace : Array Notice

def versionText : String := "calc 0.1.0\n"

def usageText : String := "Usage: calc [OPTIONS] <CONTENTS>\n"

def helpText : String :=
  "A four-function arithmetic expression calculator\n\n" ++ usageText ++
  "\nArguments:\n  <CONTENTS>  The expression to evaluate, e.g. \"(2 + 3) * 4\"\n" ++
  "\nOptions:\n  -d, --debug    Print a trace of scanning and parsing to stderr\n" ++
  "  -f, --file     Tells calc to read the expression from a file instead\n" ++
  "  -h, --help     Print help\n  -V, --version  Print version\n"

namespace Report

def success (stdout : String) : Report :=
  ⟨0, stdout, none, #[]⟩

/-- A run that ends without output. Its message is logged with the control characters escaped that
a source or a path may bring into it. -/
def failure (message : String) : Report :=
  ⟨1, "", some (Text.escapeControls message), #[]⟩

def misuse : Report :=
  ⟨2, "", none, #[]⟩

/-- A run in which the calculator traces these events. Without the debug flag none are shown. -/
def traced (debug : Bool) (events : Array Event) (report : Report) : Report :=
  if debug then { report with trace := #[.debugMode] ++ events.map .event } else report

def ofExpression (debug : Bool) (expression : String) : Report :=
  traced debug (evaluationEvents expression) <|
    match calculate expression with
    | .ok calculation => success (calculation.line ++ "\n")
    | .error e => failure e.message

/-- The expression in a file: all its text but the white space at its end. -/
def expressionOf (contents : ByteArray) : Except FileError String :=
  match String.fromUTF8? contents with
  | some text => .ok (Text.trimEnd text)
  | none => .error .notUtf8

def ofFile (debug : Bool) (path : String) (contents : Except FileError ByteArray) : Report :=
  match contents.bind expressionOf with
  | .ok expression => ofExpression debug expression
  | .error e =>
    traced debug #[] (failure ("Failed to read the input file '" ++ path ++ "': " ++ e.describe))

/-- The run that answers a request, given how files are read. -/
def ofRequest (read : String → Except FileError ByteArray) : Request → Report
  | .help => success helpText
  | .version => success versionText
  | .misuse => misuse
  | .calculate debug false expression => ofExpression debug expression
  | .calculate debug true path => ofFile debug path (read path)

end Report

/-- The run of the program on a list of arguments. -/
def run (read : String → Except FileError ByteArray) (args : List String) : Report :=
  Report.ofRequest read (Request.ofArguments args)

end FourFunction.CommandLine
