/-! What a list of command line arguments asks for. The arguments are taken from left to right, and
the first one that asks for help or the version, or that cannot be used, decides. -/

namespace FourFunction.CommandLine

inductive Request where
  | help
  | version
  | misuse
  /-- Evaluate an expression, or the contents of the file it names. -/
  | calculate (debug fromFile : Bool) (contents : String)
deriving DecidableEq

structure Settings where
  debug : Bool
  fromFile : Bool
  contents : Option String
deriving DecidableEq

namespace Settings

def initial : Settings :=
  ⟨false, false, none⟩

/-- Takes a positional argument, of which there is one. -/
def positional (s : Settings) (argument : String) : Except Request Settings :=
  match s.contents with
  | none => .ok { s with contents := some argument }
  | some _ => .error .misuse

/-- Sets the debug flag, which may be given once. -/
def setDebug (s : Settings) : Except Request Settings :=
  if s.debug then .error .misuse else .ok { s with debug := true }

/-- Sets the file flag, which may be given once. -/
def setFromFile (s : Settings) : Except Request Settings :=
  if s.fromFile then .error .misuse else .ok { s with fromFile := true }

/-- Takes one letter of a group of short options. -/
def short (s : Settings) : Char → Except Request Settings
  | 'd' => s.setDebug
  | 'f' => s.setFromFile
  | 'h' => .error .help
  | 'V' => .error .version
  | _ => .error .misuse

def shorts (s : Settings) : List Char → Except Request Settings
  | [] => .ok s
  | c :: cs =>
    match s.short c with
    | .ok s' => shorts s' cs
    | .error request => .error request

/-- Takes a long option. Its name has to be written out, and it has no value. -/
def long (s : Settings) : String → Except Request Settings
  | "debug" => s.setDebug
  | "file" => s.setFromFile
  | "help" => .error .help
  | "version" => .error .version
  | _ => .error .misuse

/-- Takes one argument. A hyphen alone is positional. -/
def argument (s : Settings) (text : String) : Except Request Settings :=
  match text.toList with
  | '-' :: '-' :: name => s.long (String.ofList name)
  | '-' :: c :: cs => s.shorts (c :: cs)
  | _ => s.positional text

def positionals (s : Settings) : List String → Except Request Settings
  | [] => .ok s
  | a :: rest =>
    match s.positional a with
    | .ok s' => positionals s' rest
    | .error request => .error request

/-- Takes arguments from left to right. Two hyphens alone end the options. -/
def arguments (s : Settings) : List String → Except Request Settings
  | [] => .ok s
  | "--" :: rest => s.positionals rest
  | a :: rest =>
    match s.argument a with
    | .ok s' => arguments s' rest
    | .error request => .error request

end Settings

/-- The request made by a list of arguments. A missing expression is noticed last. -/
def Request.ofArguments (args : List String) : Request :=
  match Settings.initial.arguments args with
  | .error request => request
  | .ok ⟨debug, fromFile, some contents⟩ => .calculate debug fromFile contents
  | .ok ⟨_, _, none⟩ => .misuse

def Request.path? : Request → Option String
  | calculate _ true path => some path
  | _ => none

end FourFunction.CommandLine
