-- SUMMARY: Why an evaluation fails, and what is reported for each cause.
import TreeWalk.Error
import TreeWalk.Program.Basic

/-! # Causes of evaluation errors

One constructor for each way in which evaluation fails, with what the report
needs. `RunError.kind` and `RunError.message` are the only places where causes
become kinds and texts.
-/

namespace TreeWalk

inductive RunError where
  -- the shape of a built-in function
  | noOperator
  | severalOperators (count : Nat)
  | operandCount (operator : Operator) (count : Nat)
  -- arithmetic
  | sumOverflows (left right : Number)
  | differenceOverflows (left right : Number)
  | cannotAdd (left right : Value)
  | notANumber (value : Value)
  -- variables
  | namelessAccess
  | undefinedVariable (name : Name) (owner : Option Name)
  | namelessDeclaration
  | noInitializer (name : Name)
  -- functions
  | namelessDefinition
  | emptyFunction (name : Name)
  | namelessCall
  | undefinedFunction (name : Name)
  | argumentCount (name : Name) (expected found : Nat)
  | tooDeep (name : Name) (limit : Nat)
  | noValue (name : Option Name)
  -- the shape of conditionals
  | noCondition
  | severalConditions
  | emptyConditional
  -- what has no meaning where it stands
  | malformedExpression (count : Nat)
  | invalidExpression (tag : Tag)
  | malformedStatement (count : Nat)
  | invalidStatement (tag : Tag)
  | invalidItem (tag : Tag)
  deriving Inhabited

namespace RunError

def kind : RunError → ErrorKind
  | sumOverflows .. | differenceOverflows .. | cannotAdd .. | notANumber .. | noValue .. =>
      .invalidCalculation
  | undefinedVariable .. => .undefinedVariable
  | undefinedFunction .. => .undefinedFunction
  | argumentCount .. => .arityMismatch
  | tooDeep .. => .stackOverflow
  | _ => .invalidSyntax

def message : RunError → String
  | noOperator => "Expected '+', '-', or '=='"
  | severalOperators count =>
      "Expected only one operator for built-in function, found " ++ count.repr
  | operandCount operator count =>
      "Expected exactly two parameters for binary operation '" ++ operator.text ++ "', found "
        ++ count.repr
  | sumOverflows left right => left.text ++ " + " ++ right.text ++ " overflows"
  | differenceOverflows left right => left.text ++ " - " ++ right.text ++ " overflows"
  | cannotAdd left right =>
      "Cannot add types '" ++ left.typeName ++ "' and '" ++ right.typeName ++ "'"
  | notANumber value =>
      "Expected number, got " ++ value.typeName ++ " '" ++ value.quoted ++ "'"
  | namelessAccess => "Attempt to access variable with no name"
  | undefinedVariable name none => "Attempt to access undefined variable '" ++ name ++ "'"
  | undefinedVariable name (some owner) =>
      "Attempt to access undefined variable '" ++ name ++ "' in function '" ++ owner ++ "'"
  | namelessDeclaration => "Defined variable with no name"
  | noInitializer name => "Defined variable '" ++ name ++ "' with no value"
  | namelessDefinition => "Defined function with no name for identifier"
  | emptyFunction name => "Defined function '" ++ name ++ "' with no statements"
  | namelessCall => "Called function with no name"
  | undefinedFunction name => "Function '" ++ name ++ "' is not defined"
  | argumentCount name expected found =>
      "Function '" ++ name ++ "' expects " ++ expected.repr ++ " arguments, got " ++ found.repr
  | tooDeep name limit =>
      "Maximum call depth of " ++ limit.repr ++ " exceeded calling '" ++ name ++ "'"
  | noValue name => "Function '" ++ name.getD "<unnamed>" ++ "' produced no value"
  | noCondition => "If statement has no expression"
  | severalConditions => "If statement has more than one expression"
  | emptyConditional => "If statement has no statements"
  | malformedExpression count =>
      "Expression must contain exactly one node, found " ++ count.repr
  | invalidExpression tag => "Expression contained invalid node type '" ++ tag.text ++ "'"
  | malformedStatement count =>
      "Statement must contain exactly one node, found " ++ count.repr
  | invalidStatement tag => "Statement contained invalid node type '" ++ tag.text ++ "'"
  | invalidItem tag => "Undefined node '" ++ tag.text ++ "' in abstract syntax tree"

/-- The report of a cause. Evaluation knows no places. -/
def report (cause : RunError) : Error :=
  { kind := cause.kind, details := cause.message }

end RunError

end TreeWalk
