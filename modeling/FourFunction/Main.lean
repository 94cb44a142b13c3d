import FourFunction.CommandLine.Report

/-! The program: reads the file that a request names, and shows the report. -/

namespace FourFunction.CommandLine

/-- The number of a system error, which some calls report negated. -/
def errorNumber (code : UInt32) : UInt32 :=
  min code (-code)

/-- The bytes of a file, or why they cannot be had. -/
def readContents (path : String) : IO (Except FileError ByteArray) :=
  try
    return .ok (← IO.FS.readBinFile path)
  catch e =>
    match e with
    | .noFileOrDirectory .. => return .error .notFound
    | .inappropriateType _ code _ =>
      return .error (if errorNumber code = 20 then .notDirectory else .isDirectory)
    | .invalidArgument _ code details =>
      return .error (if errorNumber code = 36 then .nameTooLong else .other details)
    | e => return .error (.other (toString e))

/-- Shows the trace, the message and the usage on the error stream, the rest on the output. -/
def Report.show (report : Report) : IO UInt32 := do
  for notice in report.trace do
    IO.eprintln (Text.escapeControls notice.line)
  if let some message := report.logged then
    IO.eprintln message
  if report.code = Report.misuse.code then
    IO.eprint usageText
  IO.print report.stdout
  return report.code.toUInt32

def program (args : List String) : IO UInt32 := do
  let request := Request.ofArguments args
  let contents ←
    match request.path? with
    | some path => readContents path
    | none => pure (.error .notFound)
  (Report.ofRequest (fun _ => contents) request).show

end FourFunction.CommandLine

def main (args : List String) : IO UInt32 :=
  FourFunction.CommandLine.program args
