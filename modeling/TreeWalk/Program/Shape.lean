-- SUMMARY: Giving a document tree the shape of a program.
import TreeWalk.Program.Basic
import TreeWalk.Tree.Children

/-! # From trees to programs

Each kind of node sorts its children by tag: names to the name, expressions to
the arguments, and so on. The sorting of one node is a recursion on its list of
children that is told how to make expressions and statements of them; what is
made of a child is up to `Expr.ofTree` and `Stmt.ofTree`, which recurse on the
tree. The first child that fails, in the order of the document, decides the
error.
-/

namespace TreeWalk

/-! ### Payloads -/

/-- The value under a tag for values. A type tag wants a value of its type. -/
def scalarOf (tag : Tag) : Tree → Except ShapeError Value
  | .scalar v =>
      match tag, v with
      | .number, .number _ | .string, .string _ | .boolean, .boolean _ => .ok v
      | .value, _ | .parameter, _ => .ok v
      | _, _ => .error (.wrongPayload tag)
  | _ => .error (.wrongPayload tag)

def nameOf : Tree → Except ShapeError Name
  | .scalar (.string s) => .ok s
  | _ => .error .nameNotAString

/-- A parameter of a function definition. -/
def parameterOf : Tree → Except ShapeError Name
  | .scalar (.string s) => .ok s
  | _ => .error .parameterNotAString

/-- The name under a name tag, which must be the first one of its node. -/
def onlyName (parent : Tag) (former : Option Name) (t : Tree) : Except ShapeError (Option Name) :=
  if former.isSome then .error (.severalNames parent) else (nameOf t).map some

/-! ### Sorting the children of a node

The children are of a type `α` with a view of them as trees. -/

section

variable {α : Type} (tree : α → Tree) (expr : α → Except ShapeError Expr)
  (stmt : Tag → α → Except ShapeError Stmt)

def accessParts (name : Option Name) : List (Tag × α) → Except ShapeError (Option Name)
  | [] => .ok name
  | (.name, c) :: rest => do accessParts (← onlyName .variableAccess name (tree c)) rest
  | (tag, _) :: _ => .error (.unexpectedChild tag .variableAccess)

/-- The name and the arguments of a call. -/
def callParts (name : Option Name) :
    List (Tag × α) → Except ShapeError (Option Name × List Expr)
  | [] => .ok (name, [])
  | (.name, c) :: rest => do callParts (← onlyName .functionCall name (tree c)) rest
  | (.expression, c) :: rest => do
      let e ← expr c
      let (name, es) ← callParts name rest
      return (name, e :: es)
  | (tag, _) :: _ => .error (.unexpectedChild tag .functionCall)

/-- The operators and the operands of a built-in function. -/
def builtInParts : List (Tag × α) → Except ShapeError (List Operator × List Expr)
  | [] => .ok ([], [])
  | (.equality, _) :: rest => (builtInParts rest).map fun (ops, es) => (.equality :: ops, es)
  | (.plus, _) :: rest => (builtInParts rest).map fun (ops, es) => (.plus :: ops, es)
  | (.minus, _) :: rest => (builtInParts rest).map fun (ops, es) => (.minus :: ops, es)
  | (.expression, c) :: rest => do
      let e ← expr c
      let (ops, es) ← builtInParts rest
      return (ops, e :: es)
  | (tag, _) :: _ => .error (.unexpectedChild tag .builtInFunction)

/-- The name, the parameters and the body of a function definition. -/
def definitionParts (name : Option Name) :
    List (Tag × α) → Except ShapeError (Option Name × List Name × List Stmt)
  | [] => .ok (name, [], [])
  | (.name, c) :: rest => do
      definitionParts (← onlyName .functionDefinition name (tree c)) rest
  | (.parameter, c) :: rest => do
      let x ← parameterOf (tree c)
      let (name, xs, body) ← definitionParts name rest
      return (name, x :: xs, body)
  | (tag, c) :: rest => do
      let s ← stmt tag c
      let (name, xs, body) ← definitionParts name rest
      return (name, xs, s :: body)

/-- The conditions and the body of a conditional. -/
def conditionalParts : List (Tag × α) → Except ShapeError (List Expr × List Stmt)
  | [] => .ok ([], [])
  | (.expression, c) :: rest => do
      let e ← expr c
      let (es, body) ← conditionalParts rest
      return (e :: es, body)
  | (tag, c) :: rest => do
      let s ← stmt tag c
      let (es, body) ← conditionalParts rest
      return (es, s :: body)

/-- The value of a declaration, which must be the only one. -/
def onlyValue (former : Option Initializer) (value : Initializer) :
    Except ShapeError (Option Initializer) :=
  if former.isSome then .error .severalValues else .ok (some value)

/-- The name and the value of a variable declaration. -/
def declarationParts (name : Option Name) (value : Option Initializer) :
    List (Tag × α) → Except ShapeError (Option Name × Option Initializer)
  | [] => .ok (name, value)
  | (.name, c) :: rest => do
      declarationParts (← onlyName .variableDeclaration name (tree c)) value rest
  | (.value, c) :: rest => do
      let v ← scalarOf .value (tree c)
      declarationParts name (← onlyValue value (.literal v)) rest
  | (.expression, c) :: rest => do
      let e ← expr c
      declarationParts name (← onlyValue value (.expression e)) rest
  | (tag, _) :: _ => .error (.unexpectedChild tag .variableDeclaration)

end

/-! ### Expressions and statements -/

/-- The expression that stands under an expression tag, or in its place. -/
def Expr.ofTree (t : Tree) : Except ShapeError Expr := do
  match ← t.childrenWithin .expression with
  | [(.expression, c)] => ofTree c.1
  | [(.number, c)] => (scalarOf .number c.1).map literal
  | [(.string, c)] => (scalarOf .string c.1).map literal
  | [(.boolean, c)] => (scalarOf .boolean c.1).map literal
  | [(.parameter, c)] => (scalarOf .parameter c.1).map parameter
  | [(.variableAccess, c)] => do
      let name ← accessParts id none (← c.1.children .variableAccess)
      return access name
  | [(.functionCall, c)] => do
      let (name, arguments) ← callParts (fun d => d.1) (fun d => ofTree d.1) none
        (← c.1.childrenWithin .functionCall)
      return call name arguments
  | [(.builtInFunction, c)] => do
      let (operators, operands) ← builtInParts (fun d => ofTree d.1)
        (← c.1.childrenWithin .builtInFunction)
      return builtIn operators operands
  | [(tag, _)] => .ok (invalid tag)
  | cs => .ok (malformed cs.length)
termination_by sizeOf t
decreasing_by
  · exact c.2
  · exact Nat.lt_trans d.2 c.2
  · exact Nat.lt_trans d.2 c.2

/-- The statement that stands under a tag. Under the statement tag it may stand
    inside an object of its own. -/
def Stmt.ofTree (tag : Tag) (t : Tree) : Except ShapeError Stmt := do
  match tag with
  | .statement =>
      match ← t.childrenWithin .statement with
      | [(tag, c)] => ofTree tag c.1
      | cs => .ok (malformed cs.length)
  | .functionDefinition => do
      let (name, parameters, body) ← definitionParts (fun c => c.1)
        (fun tag c => ofTree tag c.1) none (← t.childrenWithin .functionDefinition)
      return functionDefinition name parameters body
  | .conditional => do
      let (conditions, body) ← conditionalParts (fun c => Expr.ofTree c.1)
        (fun tag c => ofTree tag c.1) (← t.childrenWithin .conditional)
      return conditional conditions body
  | .returns => (Expr.ofTree t).map returns
  | .variableDeclaration => do
      let (name, value) ← declarationParts id Expr.ofTree none none
        (← t.children .variableDeclaration)
      return declaration name value
  | .expression => (Expr.ofTree t).map expression
  | tag => .ok (invalid tag)
termination_by sizeOf t
decreasing_by
  · exact c.2
  · exact c.2
  · exact c.2

/-! ### Programs -/

/-- The item that stands under a tag at the top of a program. -/
def Item.ofTree (tag : Tag) (t : Tree) : Except ShapeError Item :=
  match tag with
  | .functionDefinition => do
      let (name, parameters, body) ← definitionParts id Stmt.ofTree none
        (← t.children .functionDefinition)
      return functionDefinition name parameters body
  | .returns => (Expr.ofTree t).map returns
  | .conditional => do
      let (conditions, body) ← conditionalParts Expr.ofTree Stmt.ofTree
        (← t.children .conditional)
      return conditional conditions body
  | tag => .ok (invalid tag)

def itemsOf : List (Tag × Tree) → Except ShapeError (List Item)
  | [] => .ok []
  | (tag, c) :: rest => do
      let item ← Item.ofTree tag c
      let items ← itemsOf rest
      return item :: items

/-- The program that stands under the program tag. -/
def Program.ofPayload (t : Tree) : Except ShapeError Program := do
  return ⟨← itemsOf (← t.children .program)⟩

/-- The program that a whole document is. -/
def Program.ofTree : Tree → Except ShapeError Program
  | .object [(key, payload)] =>
      if key = Tag.program.text then ofPayload payload else .error (.otherRoot key)
  | .object entries => .error (.rootCount entries.length)
  | _ => .error .noProgram

end TreeWalk
