-- SUMMARY: Reading files by their path in a directory that is given as a value.

/-! # Directories

A directory as the list of the files in it and below it. Reading one goes along
the parts of the path; `ReadError` says why there may be nothing to read. The
text of a file is its content if that is well-formed UTF-8.
-/

namespace TreeWalk.CommandLine

/-- Why a file cannot be read. -/
inductive ReadError where
  | missing
  | notADirectory
  | isADirectory
  | notText
  /-- another reason of the system, in its own words -/
  | other (reason : String)
  deriving DecidableEq, Repr

def ReadError.text : ReadError → String
  | missing => "No such file or directory (os error 2)"
  | notADirectory => "Not a directory (os error 20)"
  | isADirectory => "Is a directory (os error 21)"
  | notText => "stream did not contain valid UTF-8"
  | other reason => reason

/-- The text that a file holds. -/
def decode (content : ByteArray) : Except ReadError String :=
  match String.fromUTF8? content with
  | some text => .ok text
  | none => .error .notText

/-- The parts of a path between slashes. -/
def pathParts (path : String) : List String :=
  path.splitOn "/"

/-- Files with the parts of their paths. -/
structure Directory where
  files : List (List String × ByteArray)

namespace Directory

def ofFiles (files : List (String × ByteArray)) : Directory :=
  ⟨files.map fun (path, content) => (pathParts path, content)⟩

/-- What is at a place in the directory. -/
inductive Place where
  | file (content : ByteArray)
  | directory
  | nothing

def at? (d : Directory) (place : List String) : Place :=
  match d.files.lookup place with
  | some content => .file content
  | none =>
      if place.isEmpty || d.files.any fun (path, _) => place.isPrefixOf path then .directory
      else .nothing

/-- Goes along the parts of a path from a place in the directory, or from a place
    above it, of which nothing is known but the directories on the way. -/
def walk (d : Directory) : Option (List String) → List String → Except ReadError ByteArray
  | _, [] => .error .isADirectory
  | place, "" :: parts => d.walk place parts
  | place, "." :: parts => d.walk place parts
  | none, ".." :: parts => d.walk none parts
  | some place, ".." :: parts =>
      d.walk (if place.isEmpty then none else some place.dropLast) parts
  | none, _ :: _ => .error .missing
  | some place, part :: parts =>
      match d.at? (place ++ [part]), parts with
      | .file content, [] => .ok content
      | .file _, _ :: _ => .error .notADirectory
      | .directory, parts => d.walk (some (place ++ [part])) parts
      | .nothing, _ => .error .missing

/-- The content of the file with this path. -/
def read (d : Directory) (path : String) : Except ReadError ByteArray :=
  match pathParts path with
  | "" :: [] => .error .missing
  | "" :: parts => d.walk none parts
  | parts => d.walk (some []) parts

end Directory

end TreeWalk.CommandLine
