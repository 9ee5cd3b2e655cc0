-- SUMMARY: Why a text is no document, and how that is said.
import TreeWalk.Json.Cursor
import TreeWalk.Error

/-! # Faults of documents

Each way in which a text fails to be a document, with the place at which the
reader noticed.
-/

namespace TreeWalk.Json

inductive Fault where
  -- the text ends too early
  | endInValue
  | endInList
  | endInObject
  | endInString
  -- something else was expected
  | noValue
  | notTheWord
  | noColon
  | noCommaOrBracket
  | noCommaOrBrace
  | trailingComma
  | keyNotAString
  | trailingCharacters
  -- numbers
  | invalidNumber
  | numberOutOfRange
  | integerOutOfRange (n : Nat)
  -- strings
  | invalidEscape
  | loneSurrogate
  | halfASurrogatePair
  | controlCharacter
  -- lists and objects
  | tooDeep
  deriving DecidableEq, Repr

def Fault.text : Fault → String
  | endInValue => "EOF while parsing a value"
  | endInList => "EOF while parsing a list"
  | endInObject => "EOF while parsing an object"
  | endInString => "EOF while parsing a string"
  | noValue => "expected value"
  | notTheWord => "expected ident"
  | noColon => "expected `:`"
  | noCommaOrBracket => "expected `,` or `]`"
  | noCommaOrBrace => "expected `,` or `\x7d`"
  | trailingComma => "trailing comma"
  | keyNotAString => "key must be a string"
  | trailingCharacters => "trailing characters"
  | invalidNumber => "invalid number"
  | numberOutOfRange => "number out of range"
  | integerOutOfRange n => "integer " ++ n.repr ++ " is out of range"
  | invalidEscape => "invalid escape"
  | loneSurrogate => "lone leading surrogate in hex escape"
  | halfASurrogatePair => "unexpected end of hex escape"
  | controlCharacter =>
      "control character (\\u0000-\\u001F) found while parsing a string"
  | tooDeep => "recursion limit exceeded"

structure DocumentError where
  fault : Fault
  place : Place
  deriving DecidableEq, Repr

/-- The message names the fault and its place. -/
def DocumentError.message (e : DocumentError) : String :=
  e.fault.text ++ " at line " ++ e.place.line.repr ++ " column " ++ e.place.column.repr

def DocumentError.report (e : DocumentError) : Error :=
  { kind := .invalidSyntax, details := e.message }

/-- What a reader gives that starts at a cursor. -/
abbrev Reading (α : Type) (c : Cursor) := Except DocumentError (Step α c)

namespace Cursor

variable {α : Type}

/-- Fails where the cursor stands. -/
def failHere (c : Cursor) (fault : Fault) : Except DocumentError α :=
  .error ⟨fault, c.place⟩

/-- Fails one byte further on: the byte that is wrong counts as seen. -/
def failNext (c : Cursor) (fault : Fault) : Except DocumentError α :=
  .error ⟨fault, c.next⟩

end Cursor

end TreeWalk.Json
