-- SUMMARY: Functions as they are stored, and the two stores of a run.
import TreeWalk.Store

/-! # Scopes, closures and tables

Variables live in scopes and functions in tables; a call adds one of each. A
function is stored as a closure: with its body it keeps the scope and the table
in which it was defined, because that is where its body looks names up, whoever
calls it.
-/

namespace TreeWalk

/-- Variable scopes. A scope that was made for a call is labelled with the name
    of the function called. -/
abbrev Scopes (α : Type) := Store (Option Name) α

structure Closure where
  name : Name
  parameters : List Name
  body : List Stmt
  /-- the scope in which the function was defined -/
  scope : Nat
  /-- the table in which it was defined, and which holds it -/
  table : Nat
  deriving Inhabited

namespace Closure

/-- How many arguments the function takes. -/
def arity (f : Closure) : Nat :=
  f.parameters.length

end Closure

/-- A function's name with its parameters, as it would be called. -/
def signature (name : Name) (parameters : List Name) : String :=
  name ++ "(" ++ ", ".intercalate parameters ++ ")"

/-- Function tables. -/
abbrev Tables := Store Unit Closure

namespace Tables

def new : Tables :=
  Store.new ()

/-- Stores a function in a table, and gives the one of the same name that it
    takes the place of. -/
def define (t : Tables) (table : Nat) (name : Name) (parameters : List Name) (body : List Stmt)
    (scope : Nat) : Except StoreFault (Tables × Option Closure) := do
  let former ← t.own table name
  let t ← t.bind table name { name, parameters, body, scope, table }
  return (t, former)

/-- The arity of the function that a call from this table would reach. -/
def arity? (t : Tables) (table : Nat) (name : Name) : Except StoreFault (Option Nat) :=
  (t.find table name).map fun f => f.map Closure.arity

end Tables

end TreeWalk
