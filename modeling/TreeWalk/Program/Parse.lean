-- SUMMARY: From the text of a document to a program.
import TreeWalk.Json.Document
import TreeWalk.Program.Shape

/-! # Parsing

A text is parsed in two stages: it is read as a tree, and the tree is given the
shape of a program. Only the first stage knows lines, so in a report of a named
document the place tells the stages apart: with a line for a text that is no
tree, without one for a tree that is no program.
-/

namespace TreeWalk

inductive ParseError where
  | document (e : Json.DocumentError)
  | shape (cause : ShapeError)
  deriving DecidableEq, Repr

/-- The report, placed in a file if the document came from one. -/
def ParseError.report (e : ParseError) (file : Option String) : Error :=
  match e, file with
  | document e, none => e.report
  | document e, some file => e.report.locate file (some e.place.line)
  | shape cause, none => cause.report
  | shape cause, some file => cause.report.locate file none

/-- The program that a text is. The whole text is read before its shape is
    looked at. -/
def Program.parse (text : String) : Except ParseError Program :=
  match Json.readDocument text with
  | .error e => .error (.document e)
  | .ok tree =>
      match Program.ofTree tree with
      | .error cause => .error (.shape cause)
      | .ok program => .ok program

/-- The program that the text of a file is. The error is the report already, with
    the place that its stage knows. -/
def Program.parseNamed (text file : String) : Except Error Program :=
  match Json.readDocument text with
  | .error e => .error (e.report.locate file (some e.place.line))
  | .ok tree =>
      match Program.ofTree tree with
      | .error cause => .error (cause.report.locate file none)
      | .ok program => .ok program

/-- Both ways through the parser come to the same end. -/
theorem Program.parseNamed_eq (text file : String) :
    parseNamed text file = (parse text).mapError fun e => e.report (some file) := by
  unfold parseNamed parse
  cases Json.readDocument text with
  | error e => rfl
  | ok tree =>
    simp only
    cases ofTree tree <;> rfl

end TreeWalk
