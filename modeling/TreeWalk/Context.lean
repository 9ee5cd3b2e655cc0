-- SUMMARY: The state of a run: both stores, the current frame, the depth and the limits.
import TreeWalk.Closure

/-! # Contexts

Everything that one run owns. The scope and the table of the current frame are
the roots at first and move for as long as a call lasts. `Context.headroom` is
what is left of the limit on nested calls; evaluation recurses on it.

Operations that change a store take the context apart first, so that a store
that nothing else refers to is changed in place.
-/

namespace TreeWalk

/-- How many calls may be open at once if nothing else is said. -/
def defaultMaxCallDepth : Nat := 512

/-- The resources that a run may use. -/
structure Limits where
  maxCallDepth : Nat := defaultMaxCallDepth
  deriving DecidableEq, Repr

structure Context where
  «variables» : Scopes Value
  functions : Tables
  /-- the current scope -/
  scope : Nat
  /-- the current table -/
  table : Nat
  /-- how many calls are open -/
  depth : Nat
  limits : Limits

/-- Where a frame stands, and how large the stores were at the time. -/
structure Mark where
  scope : Nat
  table : Nat
  scopes : Nat
  tables : Nat
  deriving DecidableEq, Repr

namespace Context

/-- A context in which nothing has happened yet. -/
def new (limits : Limits) : Context :=
  { «variables» := Store.new none
    functions := Tables.new
    scope := Store.root
    table := Store.root
    depth := 0
    limits }

/-- How many calls may still be opened inside one another. -/
def headroom (c : Context) : Nat :=
  c.limits.maxCallDepth - c.depth

def mark (c : Context) : Mark :=
  { scope := c.scope
    table := c.table
    scopes := c.variables.size
    tables := c.functions.size }

/-! ### Names -/

/-- Binds a variable in the current scope. -/
def bind : Context → Name → Value → Except StoreFault Context
  | ⟨scopes, functions, scope, table, depth, limits⟩, x, v => do
      let scopes ← scopes.bind scope x v
      return ⟨scopes, functions, scope, table, depth, limits⟩

/-- Binds parameters to arguments in order, so that of a repeated parameter the
    last one stays. What has no partner is left out. -/
def bindAll (c : Context) : List Name → List Value → Except StoreFault Context
  | x :: xs, v :: vs => do (← c.bind x v).bindAll xs vs
  | _, _ => .ok c

/-- Stores a function in the current table, and gives the one of the same name
    that it takes the place of. -/
def define (c : Context) (name : Name) (parameters : List Name) (body : List Stmt) :
    Except StoreFault (Option Closure × Context) :=
  match c with
  | ⟨scopes, functions, scope, table, depth, limits⟩ => do
      let (functions, former) ← functions.define table name parameters body scope
      return (former, ⟨scopes, functions, scope, table, depth, limits⟩)

/-! ### Frames -/

/-- Makes a new frame current, below the given scope and table. -/
def enter : Context → (scope table : Nat) → (owner : Option Name) → Except StoreFault Context
  | ⟨scopes, functions, _, _, depth, limits⟩, scope, table, owner => do
      let (scopes, scope) ← scopes.push scope owner
      let (functions, table) ← functions.push table ()
      return ⟨scopes, functions, scope, table, depth, limits⟩

/-- Goes back to a marked frame and drops the entries that are newer. -/
def leave : Context → Mark → Except StoreFault Context
  | ⟨scopes, functions, _, _, depth, limits⟩, mark => do
      let scopes ← scopes.truncate mark.scopes
      let functions ← functions.truncate mark.tables
      return ⟨scopes, functions, mark.scope, mark.table, depth, limits⟩

/-- Opens a call: makes a frame current that lies below the place where the
    function was defined, with its parameters bound. Gives the caller's mark. -/
def openCall (c : Context) (f : Closure) (arguments : List Value) :
    Except StoreFault (Mark × Context) := do
  let caller := c.mark
  let c ← c.enter f.scope f.table (some f.name)
  let c ← c.bindAll f.parameters arguments
  return (caller, { c with depth := c.depth + 1 })

/-- Closes the call that was opened last, and goes back to its caller. -/
def closeCall (c : Context) (caller : Mark) : Except StoreFault Context :=
  { c with depth := c.depth - 1 }.leave caller

end Context

end TreeWalk
