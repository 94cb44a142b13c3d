import FourFunction.CommandLine.Request

/-! Lists of arguments by what they give: flags and texts, in any order and spelling. Nothing is said
of how a list is taken apart. -/

namespace FourFunction.CommandLine

/-- The flags that go with an expression. -/
inductive Flag where
  | debug
  | fromFile
deriving DecidableEq

namespace Flag

def letter : Flag → Char
  | debug => 'd'
  | fromFile => 'f'

def long : Flag → String
  | debug => "--debug"
  | fromFile => "--file"

/-- Short options put together after one hyphen. -/
def short (flags : List Flag) : String :=
  String.ofList ('-' :: flags.map letter)

end Flag

/-- The text cannot be taken for an option. -/
def IsPositional (text : String) : Prop :=
  text = "-" ∨ ∀ cs, text.toList ≠ '-' :: cs

/-- One argument gives these flags or this text. -/
inductive Word : String → List Flag → List String → Prop where
  | long (flag : Flag) : Word flag.long [flag] []
  | short (flag : Flag) (others : List Flag) : Word (Flag.short (flag :: others)) (flag :: others) []
  | text {text : String} : IsPositional text → Word text [] [text]

/-- The arguments give these flags and these texts, each in the order of the arguments. After two
hyphens alone any text may stand. -/
inductive Gives : List String → List Flag → List String → Prop where
  | nil : Gives [] [] []
  | ended (texts : List String) : Gives ("--" :: texts) [] texts
  | word {a : String} {args texts texts' : List String} {flags flags' : List Flag} :
      Word a flags texts → Gives args flags' texts' →
        Gives (a :: args) (flags ++ flags') (texts ++ texts')

/-- The settings after arguments that gave these flags and texts. -/
def Settings.given (flags : List Flag) (texts : List String) : Settings :=
  ⟨flags.contains .debug, flags.contains .fromFile, texts.head?⟩

/-- The request made with these flags for one text. -/
def Request.given (flags : List Flag) (contents : String) : Request :=
  .calculate (flags.contains .debug) (flags.contains .fromFile) contents

end FourFunction.CommandLine
