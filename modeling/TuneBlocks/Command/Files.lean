/-!
# Files

A tree of folders and files, and what reading a path in it gives. A path is followed name by name
from the root if it starts with a slash, and from the current folder if not; the first step that
cannot be taken says why the path cannot be read. What is read has to be text.
-/

namespace TuneBlocks

/-- Why a file cannot be read. -/
inductive ReadError where
  | notFound
  | denied
  /-- A name is looked for inside a file. -/
  | notFolder
  /-- The path leads to a folder. -/
  | isFolder
  | nameTooLong
  | notText
  | other (reason : String)
deriving DecidableEq

def ReadError.message : ReadError → String
  | notFound => "No such file or directory (os error 2)"
  | denied => "Permission denied (os error 13)"
  | notFolder => "Not a directory (os error 20)"
  | isFolder => "Is a directory (os error 21)"
  | nameTooLong => "File name too long (os error 36)"
  | notText => "stream did not contain valid UTF-8"
  | other reason => reason

/-- What stands under a path. -/
inductive Entry where
  | folder
  | file (bytes : ByteArray)

/-- A tree of files. -/
structure Files where
  /-- What stands under the names that lead to it from the root. -/
  entry? : List String → Option Entry
  /-- The names that lead to the current folder. -/
  current : List String

namespace Files

/-- The most bytes in a name. -/
def nameLimit : Nat := 255

/-- The most bytes in a path. -/
def pathLimit : Nat := 4095

/-- The text that bytes stand for. -/
def textOf (bytes : ByteArray) : Except ReadError String :=
  match String.fromUTF8? bytes with
  | some text => .ok text
  | none => .error .notText

/-- Follows names from a place in the tree: an empty name or a dot stays, two dots lead to the
folder around, or stay at the root. Every name has to be looked for in a folder. -/
def walk (files : Files) : List String → List String → Except ReadError (List String)
  | [], place => .ok place
  | name :: names, place =>
    match files.entry? place with
    | none => .error .notFound
    | some (.file _) => .error .notFolder
    | some .folder =>
      if name = "" || name = "." then files.walk names place
      else if name = ".." then files.walk names place.dropLast
      else if nameLimit < name.utf8ByteSize then .error .nameTooLong
      else if (files.entry? (place ++ [name])).isNone then .error .notFound
      else files.walk names (place ++ [name])

/-- The text of the file under a path. -/
def read (files : Files) (path : String) : Except ReadError String := do
  if path = "" then throw .notFound
  if pathLimit < path.utf8ByteSize then throw .nameTooLong
  let place ← files.walk (path.splitOn "/") (if path.startsWith "/" then [] else files.current)
  match files.entry? place with
  | some (.file bytes) => textOf bytes
  | some .folder => throw .isFolder
  | none => throw .notFound

end Files

end TuneBlocks
