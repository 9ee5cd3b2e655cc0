-- SUMMARY: Evaluation of expressions, statements, blocks and programs.
import TreeWalk.Evaluation.Action
import TreeWalk.Evaluation.Operation

/-! # Evaluation

Expressions and statements are evaluated by recursion on their syntax. The body
of a function is no part of the call that runs it, so calls go through an
`Invoker`, which is what the syntax is evaluated with: `invoker` recurses on the
number of calls that may still be opened, and hands the bodies an invoker with
one call less. The limit on the depth of calls is therefore what ends every
evaluation, and a program that runs into it is told so by `invoker 0`.

`Expr.evaluate`, `Stmt.execute` and their kin start from the headroom of the
context they are run in.
-/

namespace TreeWalk

/-- How a call goes on when its callee is known: it is given the evaluation of
    its arguments, which a call that may not be opened leaves alone. -/
abbrev Invoker := Closure → Action (List Value) → Action (Option Value)

/-! ### Expressions -/

/-- A call: nothing of it is evaluated unless its callee exists and takes as many
    arguments. -/
def callWith (invoke : Invoker) (name : Option Name) (count : Nat)
    (arguments : Action (List Value)) : Action (Option Value) := do
  invoke (← Action.callee name count) arguments

mutual

def Expr.evaluateWith (invoke : Invoker) : Expr → Action Value
  | .literal v => pure v
  | .parameter v => pure v
  | .access none => Action.fail .namelessAccess
  | .access (some x) => Action.readVariable x
  | .call name arguments => do
      match ← callWith invoke name arguments.length (evaluateAllWith invoke arguments) with
      | some v => pure v
      | none => Action.fail (.noValue name)
  | .builtIn [operator] [left, right] => do
      let l ← left.evaluateWith invoke
      let r ← right.evaluateWith invoke
      Action.ofResult (operator.apply l r)
  | .builtIn operators operands => Action.fail (builtInFault operators operands.length)
  | .malformed count => Action.fail (.malformedExpression count)
  | .invalid tag => Action.fail (.invalidExpression tag)

/-- Evaluates from left to right, up to the first error. -/
def evaluateAllWith (invoke : Invoker) : List Expr → Action (List Value)
  | [] => pure []
  | e :: es => do
      let v ← e.evaluateWith invoke
      let vs ← evaluateAllWith invoke es
      pure (v :: vs)

end

/-! ### Statements

A statement gives a value if it returns one, and then ends the block it is in. -/

def Initializer.evaluateWith (invoke : Invoker) : Initializer → Action Value
  | .literal v => pure v
  | .expression e => e.evaluateWith invoke

def declareWith (invoke : Invoker) (name : Option Name) (value : Option Initializer) :
    Action Unit := do
  let some name := name | Action.fail .namelessDeclaration
  let some value := value | Action.fail (.noInitializer name)
  Action.bindVariable name (← value.evaluateWith invoke)

/-- The one condition of a conditional with a body. -/
def theCondition (conditions : List Expr) (body : List Stmt) : Except RunError Expr :=
  match conditions, body with
  | [], _ => .error .noCondition
  | [_], [] => .error .emptyConditional
  | [condition], _ => .ok condition
  | _, _ => .error .severalConditions

/-- An expression run for what it does: only here may a call give no value. -/
def Expr.runWith (invoke : Invoker) : Expr → Action Unit
  | .call name arguments => do
      let _ ← callWith invoke name arguments.length (evaluateAllWith invoke arguments)
  | e => do
      let _ ← e.evaluateWith invoke

/-- A conditional, given what its body does. It has no scope of its own. -/
def chooseWith (invoke : Invoker) (conditions : List Expr) (body : List Stmt)
    (runBody : Action (Option Value)) : Action (Option Value) := do
  let condition ← Action.ofResult (theCondition conditions body)
  if (← condition.evaluateWith invoke).truthy then runBody else pure none

mutual

def Stmt.executeWith (invoke : Invoker) : Stmt → Action (Option Value)
  | .functionDefinition name parameters body => do
      Action.define name parameters body
      pure none
  | .conditional conditions body =>
      chooseWith invoke conditions body (executeAllWith invoke body)
  | .returns e => some <$> e.evaluateWith invoke
  | .declaration name value => do
      declareWith invoke name value
      pure none
  | .expression e => do
      e.runWith invoke
      pure none
  | .malformed count => Action.fail (.malformedStatement count)
  | .invalid tag => Action.fail (.invalidStatement tag)

/-- Executes in order, up to the first statement that returns or fails. -/
def executeAllWith (invoke : Invoker) : List Stmt → Action (Option Value)
  | [] => pure none
  | s :: rest => do
      match ← s.executeWith invoke with
      | some v => pure (some v)
      | none => executeAllWith invoke rest

end

/-! ### Calls -/

/-- Opens calls as long as the headroom lasts. The arguments are evaluated in the
    caller's frame, before the call is opened. What is reported and recorded has the
    name of the function, which is the name in the call: tables keep every function
    under its own. -/
def invoker : (headroom : Nat) → Invoker
  | 0, f, _ => do Action.fail (.tooDeep f.name (← Action.context).limits.maxCallDepth)
  | headroom + 1, f, arguments => do
      let values ← arguments
      let result ← Action.inFrame f values (executeAllWith (invoker headroom) f.body)
      Action.record (.returned f.name result)
      pure result

/-! ### Entry points -/

/-- Evaluates something with as many nested calls as the context has left. -/
def withHeadroom {α : Type} (run : Invoker → Action α) : Action α := do
  run (invoker (← Action.context).headroom)

def Expr.evaluate (e : Expr) : Action Value :=
  withHeadroom fun invoke => e.evaluateWith invoke

/-- Runs a call for the value that the function returns, if it returns. -/
def call (name : Option Name) (arguments : List Expr) : Action (Option Value) :=
  withHeadroom fun invoke =>
    callWith invoke name arguments.length (evaluateAllWith invoke arguments)

def Stmt.execute (s : Stmt) : Action (Option Value) :=
  withHeadroom fun invoke => s.executeWith invoke

/-- Executes the statements of a block. -/
def executeAll (body : List Stmt) : Action (Option Value) :=
  withHeadroom fun invoke => executeAllWith invoke body

def declare (name : Option Name) (value : Option Initializer) : Action Unit :=
  withHeadroom fun invoke => declareWith invoke name value

def choose (conditions : List Expr) (body : List Stmt) : Action (Option Value) :=
  withHeadroom fun invoke =>
    chooseWith invoke conditions body (executeAllWith invoke body)

/-! ### Programs -/

def Item.execute : Item → Action (Option Value)
  | .functionDefinition name parameters body => do
      Action.define name parameters body
      pure none
  | .conditional conditions body => choose conditions body
  | .returns e => some <$> e.evaluate
  | .invalid tag => Action.fail (.invalidItem tag)

/-- Executes items in order, up to the first one that returns or fails. -/
def executeItems : List Item → Action (Option Value)
  | [] => pure none
  | item :: rest => do
      match ← item.execute with
      | some v => pure (some v)
      | none => executeItems rest

/-- The value that the program returns, if it returns one. -/
def Program.execute (p : Program) : Action (Option Value) := do
  Action.record (.executing p.items.length)
  executeItems p.items

end TreeWalk
