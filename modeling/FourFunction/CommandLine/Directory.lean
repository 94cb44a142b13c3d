/-! Reading files by path, and a directory of files held in memory. -/

namespace FourFunction.CommandLine

/-- The ways in which the text of a file cannot be had. -/
inductive FileError where
  | notFound
  | notDirectory
  | isDirectory
  | nameTooLong
  | notUtf8
  | other (reason : String)
deriving DecidableEq

def FileError.describe : FileError → String
  | notFound => "No such file or directory (os error 2)"
  | notDirectory => "Not a directory (os error 20)"
  | isDirectory => "Is a directory (os error 21)"
  | nameTooLong => "File name too long (os error 36)"
  | notUtf8 => "stream did not contain valid UTF-8"
  | other reason => reason

structure Directory where
  files : List (String × ByteArray)

/-- Where a path has led to. Nothing is known of the directories around the one in memory but that
each lies in another and holds no file. -/
inductive Location where
  | inside
  | outside
  | file (contents : ByteArray)

namespace Directory

/-- The most bytes that one name on a path may have. -/
def maxNameBytes : Nat := 255

/-- The most bytes that a path may have. -/
def maxPathBytes : Nat := 4095

/-- Follows one name on a path. A file leads nowhere, not even with the empty name after a slash
at its end. -/
def follow (d : Directory) : Location → String → Except FileError Location
  | .file _, _ => .error .notDirectory
  | .inside, name =>
    if name = "" ∨ name = "." then .ok .inside
    else if name = ".." then .ok .outside
    else if maxNameBytes < name.utf8ByteSize then .error .nameTooLong
    else
      match d.files.lookup name with
      | some contents => .ok (.file contents)
      | none => .error .notFound
  | .outside, name =>
    if name = "" ∨ name = "." ∨ name = ".." then .ok .outside
    else if maxNameBytes < name.utf8ByteSize then .error .nameTooLong
    else .error .notFound

def followAll (d : Directory) (place : Location) : List String → Except FileError Location
  | [] => .ok place
  | name :: names =>
    match d.follow place name with
    | .ok next => followAll d next names
    | .error e => .error e

/-- The location of a path, which starts in the directory unless it starts with a slash. -/
def locate (d : Directory) (path : String) : Except FileError Location :=
  if path = "" then .error .notFound
  else if maxPathBytes < path.utf8ByteSize then .error .nameTooLong
  else d.followAll (if path.startsWith "/" then .outside else .inside) (path.splitOn "/")

def read (d : Directory) (path : String) : Except FileError ByteArray :=
  match d.locate path with
  | .ok (.file contents) => .ok contents
  | .ok _ => .error .isDirectory
  | .error e => .error e

end Directory

end FourFunction.CommandLine
