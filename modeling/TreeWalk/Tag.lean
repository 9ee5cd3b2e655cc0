-- SUMMARY: The tags that mark the nodes of a document, and their texts.

/-! # Tags

A program is written as objects whose keys are tags. `Tag` lists the tags with a
meaning; every other key is an error of the document. `Tag.ofText?` is the
inverse of `Tag.text`, which also settles that no two tags share a text.
-/

namespace TreeWalk

/-- What an entry of an object stands for. -/
inductive Tag where
  | program
  | returns
  | conditional
  | statement
  | expression
  | variableDeclaration
  | variableAccess
  | functionDefinition
  | functionCall
  | builtInFunction
  | parameter
  | number
  | string
  | boolean
  | name
  | value
  | equality
  | plus
  | minus
  deriving DecidableEq, Repr, Inhabited

namespace Tag

/-- Every tag, in the order in which they are documented. -/
def all : List Tag :=
  [program, returns, conditional, statement, expression, variableDeclaration, variableAccess,
    functionDefinition, functionCall, builtInFunction, parameter, number, string, boolean, name,
    value, equality, plus, minus]

/-- The key under which a node of this kind is written. -/
def text : Tag → String
  | program => "program"
  | returns => "return"
  | conditional => "if"
  | statement => "statement"
  | expression => "expression"
  | variableDeclaration => "variable_declaration"
  | variableAccess => "variable_access"
  | functionDefinition => "function_definition"
  | functionCall => "function_call"
  | builtInFunction => "built_in_function"
  | parameter => "parameter"
  | number => "number"
  | string => "string"
  | boolean => "boolean"
  | name => "name"
  | value => "value"
  | equality => "equality"
  | plus => "plus"
  | minus => "minus"

/-- The tag that is written with this key, if there is one. -/
def ofText? (text : String) : Option Tag :=
  all.find? fun tag => tag.text == text

/-- The place of a tag in `all`. -/
def index (tag : Tag) : Nat :=
  all.idxOf tag

/-- Tags that name an operator of a built-in function. Nothing is read from
    what stands under them. -/
def isOperator : Tag → Bool
  | equality | plus | minus => true
  | _ => false

theorem ofText?_text (tag : Tag) : ofText? tag.text = some tag := by
  cases tag <;> decide

theorem text_of_ofText? {text : String} {tag : Tag} (h : ofText? text = some tag) :
    tag.text = text := by
  simpa using List.find?_some h

end Tag

end TreeWalk
