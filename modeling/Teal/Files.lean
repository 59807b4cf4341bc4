import Teal.Text.Blank
/-!
# Files

What the tool may read: the texts of files by their paths. `Directory.read` finds a file by walking
a path part by part from the working directory, and says why there is nothing to read where the walk
or the file fails.
-/

namespace Teal

/-- Why a file cannot be read. -/
inductive FileError where
  /-- The path leads nowhere. -/
  | notFound
  /-- The path goes on after a file. -/
  | notDirectory
  /-- The path leads to a directory. -/
  | isDirectory
  /-- The path, or a name in it, is longer than a path or a name can be. -/
  | nameTooLong
  /-- Its bytes are not UTF-8. -/
  | notText
  | other (message : String)
deriving DecidableEq, Repr

/-- The wording of a file error. -/
def FileError.message : FileError → String
  | .notFound => "No such file or directory (os error 2)"
  | .notDirectory => "Not a directory (os error 20)"
  | .isDirectory => "Is a directory (os error 21)"
  | .nameTooLong => "File name too long (os error 36)"
  | .notText => "stream did not contain valid UTF-8"
  | .other message => message

/-- The texts of files by their paths. -/
abbrev Files := String → Except FileError String

/-- The text that the bytes of a file hold. -/
def textOfBytes (bytes : ByteArray) : Except FileError String :=
  match String.fromUTF8? bytes with
  | some text => .ok text
  | none => .error .notText

/-- The parts of a path between its slashes, empty ones included. -/
def pathParts (path : String) : List (List Char) :=
  Text.pieces (· == '/') path.toList

/-- A directory: the files in it and below it, each with the names that lead to it. -/
structure Directory where
  files : List (List (List Char) × ByteArray)

namespace Directory

/-- The directory that holds files with the given paths. -/
def ofPaths (files : List (String × ByteArray)) : Directory :=
  ⟨files.map fun (path, bytes) => (pathParts path, bytes)⟩

/-- Where a walk along a path has come. -/
inductive Place where
  /-- In the directory that the names lead to, where the walk began if there are none. -/
  | inside (names : List (List Char))
  /-- In a directory that the one where the walk began lies in. Nothing there is known by name. -/
  | outside
  /-- At a file. -/
  | file (bytes : ByteArray)

/-- The most bytes that a name can have. -/
def maxName : Nat := 255

/-- The most bytes that a path can have. -/
def maxPath : Nat := 4095

/-- What a name stands for in a directory: a file, or a directory that some file lies in. -/
def enter (d : Directory) (names : List (List Char)) (name : List Char) : Except FileError Place :=
  let names := names ++ [name]
  match d.files.lookup names with
  | some bytes => .ok (.file bytes)
  | none =>
    if d.files.any fun (path, _) => names.isPrefixOf path then .ok (.inside names)
    else .error .notFound

/-- Follows one part of a path. An empty part and a point stay in a directory, two points leave it,
and nothing leads on from a file. -/
def follow (d : Directory) : Place → List Char → Except FileError Place
  | .file _, _ => .error .notDirectory
  | place, [] => .ok place
  | place, ['.'] => .ok place
  | .inside [], ['.', '.'] => .ok .outside
  | .inside names, ['.', '.'] => .ok (.inside names.dropLast)
  | .outside, ['.', '.'] => .ok .outside
  | .inside names, name =>
    if maxName < (String.ofList name).utf8ByteSize then .error .nameTooLong else d.enter names name
  | .outside, name =>
    if maxName < (String.ofList name).utf8ByteSize then .error .nameTooLong else .error .notFound

/-- What is known of the files of the whole system: the empty file that every system has. -/
def system : Directory :=
  ⟨[([['d', 'e', 'v'], ['n', 'u', 'l', 'l']], .empty)]⟩

/-- Where a path leads: from the working directory, or from the top of the system if it starts with
a slash. -/
def walk (d : Directory) (path : String) : Except FileError Place :=
  let parts := pathParts path
  parts.foldlM (if parts.head? = some [] then system else d).follow (.inside [])

/-- The text of the file that a path leads to. -/
def read (d : Directory) (path : String) : Except FileError String :=
  if path.isEmpty then .error .notFound
  else if maxPath < path.utf8ByteSize then .error .nameTooLong
  else
    match d.walk path with
    | .ok (.file bytes) => textOfBytes bytes
    | .ok _ => .error .isDirectory
    | .error e => .error e

end Directory

end Teal
