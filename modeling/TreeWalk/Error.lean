-- SUMMARY: Reported errors: their kinds, where they are placed, and their text.

/-! # Reported errors

What leaves the library when something went wrong: a kind to match on, details
to read, and, for documents that came with a name, a place. The causes behind
the details are types of their own: `RunError` for evaluation, `ShapeError` for
trees that are no programs, `Json.DocumentError` for texts that are no trees.
-/

namespace TreeWalk

/-- The broad classes of errors. `invalidCharacter` is kept for texts that are
    read character by character; no part of this library reports it. -/
inductive ErrorKind where
  | invalidCharacter
  | invalidSyntax
  | invalidCalculation
  | undefinedVariable
  | undefinedFunction
  | arityMismatch
  | stackOverflow
  deriving DecidableEq, Repr, Inhabited

namespace ErrorKind

def all : List ErrorKind :=
  [invalidCharacter, invalidSyntax, invalidCalculation, undefinedVariable, undefinedFunction,
    arityMismatch, stackOverflow]

def text : ErrorKind → String
  | invalidCharacter => "InvalidCharacter"
  | invalidSyntax => "InvalidSyntax"
  | invalidCalculation => "InvalidCalculation"
  | undefinedVariable => "UndefinedVariable"
  | undefinedFunction => "UndefinedFunction"
  | arityMismatch => "ArityMismatch"
  | stackOverflow => "StackOverflow"

/-- The kind with this text, if there is one. -/
def ofText? (text : String) : Option ErrorKind :=
  all.find? fun kind => kind.text == text

end ErrorKind

/-- A place in a named document. The line is missing where the error was found
    in the tree, which holds no places. -/
structure Location where
  file : String
  line : Option Nat
  deriving DecidableEq, Repr

/-- The lines that follow an error's own text. -/
def Location.text : Location → String
  | ⟨file, some line⟩ => "\nFile " ++ file ++ ", line " ++ line.repr
  | ⟨file, none⟩ => "\nFile " ++ file

structure Error where
  kind : ErrorKind
  details : String
  location : Option Location := none
  deriving DecidableEq, Repr

namespace Error

/-- Places an error; an earlier place is forgotten. -/
def locate (e : Error) (file : String) (line : Option Nat) : Error :=
  { e with location := some ⟨file, line⟩ }

def text (e : Error) : String :=
  e.kind.text ++ ": " ++ e.details ++ (e.location.map Location.text).getD ""

end Error

end TreeWalk
