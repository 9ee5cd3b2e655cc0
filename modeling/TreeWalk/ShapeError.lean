-- SUMMARY: Why a document tree is no program, and what is reported for each cause.
import TreeWalk.Error
import TreeWalk.Tag

/-! # Causes of shape errors

A tree is refused only where something cannot be kept: a key that is no tag, a
payload of the wrong type, a child with no meaning in a node that has no place
for it. Everything else goes into the program and fails when it is evaluated.
-/

namespace TreeWalk

inductive ShapeError where
  -- the root
  | noProgram
  | otherRoot (key : String)
  | rootCount (count : Nat)
  -- the children of a node
  | notAnObject (parent : Tag)
  | unknownTag (key : String)
  | emptyOperator (operator parent : Tag)
  | unexpectedChild (tag parent : Tag)
  -- payloads
  | wrongPayload (tag : Tag)
  | nameNotAString
  | parameterNotAString
  | severalNames (parent : Tag)
  | severalValues
  deriving DecidableEq, Repr, Inhabited

namespace ShapeError

def message : ShapeError → String
  | noProgram => "Expected program start token"
  | otherRoot key => "Expected program start token, found '" ++ key ++ "'"
  | rootCount count =>
      "Expected a single program node, found " ++ count.repr ++ " top-level nodes"
  | notAnObject parent => "'" ++ parent.text ++ "' node must be an object"
  | unknownTag key => "Unknown node type '" ++ key ++ "'"
  | emptyOperator operator parent =>
      "Operator '" ++ operator.text ++ "' in '" ++ parent.text ++ "' has an empty array payload"
  | unexpectedChild tag parent =>
      "Unexpected '" ++ tag.text ++ "' node in " ++ parent.text
  | wrongPayload tag => "'" ++ tag.text ++ "' node has a payload of the wrong type"
  | nameNotAString => "'name' must be a string"
  | parameterNotAString => "Function parameter must be a string"
  | severalNames parent => "'" ++ parent.text ++ "' node has more than one name"
  | severalValues => "'variable_declaration' node has more than one value"

def report (cause : ShapeError) : Error :=
  { kind := .invalidSyntax, details := cause.message }

end ShapeError

/-- The tag of a key, which has to be one. -/
def Tag.ofText (key : String) : Except ShapeError Tag :=
  match ofText? key with
  | some tag => .ok tag
  | none => .error (.unknownTag key)

end TreeWalk
