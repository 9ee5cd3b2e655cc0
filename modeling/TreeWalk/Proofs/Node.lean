-- SUMMARY: What evaluation can be entered at, under one type.
import TreeWalk.Evaluation.Basic

/-! # Nodes

Evaluation has an entry point for every kind of syntax. `Node` names them all,
and `Node.run` is the entry point of a node, so that what holds of every entry
point is stated once. Results are brought to one type: an expression gives its
value, and what gives no value in any case gives `none`.
-/

namespace TreeWalk

/-- The evaluation of the arguments of a call. -/
def evaluateAll (es : List Expr) : Action (List Value) :=
  withHeadroom fun invoke => evaluateAllWith invoke es

/-- The value that a declaration gives its variable. -/
def Initializer.evaluate (i : Initializer) : Action Value :=
  withHeadroom fun invoke => i.evaluateWith invoke

inductive Node where
  | expression (e : Expr)
  | call (name : Option Name) (arguments : List Expr)
  | statement (s : Stmt)
  | block (body : List Stmt)
  | conditional (conditions : List Expr) (body : List Stmt)
  | declaration (name : Option Name) (value : Option Initializer)
  | definition (name : Option Name) (parameters : List Name) (body : List Stmt)
  | program (p : Program)

namespace Node

def run : Node → Action (Option Value)
  | expression e => some <$> e.evaluate
  | call name arguments => TreeWalk.call name arguments
  | statement s => s.execute
  | block body => executeAll body
  | conditional conditions body => choose conditions body
  | declaration name value => (fun _ => none) <$> declare name value
  | definition name parameters body => (fun _ => none) <$> Action.define name parameters body
  | program p => p.execute

/-- The node of a top-level item; an item that is none of the three kinds has none. -/
def ofItem? : Item → Option Node
  | .functionDefinition name parameters body => some (definition name parameters body)
  | .conditional conditions body => some (conditional conditions body)
  | .returns e => some (expression e)
  | .invalid _ => none

end Node

end TreeWalk
