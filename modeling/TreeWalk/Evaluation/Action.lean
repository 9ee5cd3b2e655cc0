-- SUMMARY: The steps that evaluation is made of, as actions on a session.
import TreeWalk.Context
import TreeWalk.Event
import TreeWalk.RunError

/-! # Actions

Evaluation reads and changes a `Session`: a context and the record of what has
happened. An action ends in a result or in an error of the program, and leaves a
session behind in both cases, because what was bound before an error stays
bound. Only a store that is asked for something it does not have stops an action
without leaving anything.

This file holds the actions that do not depend on how expressions are evaluated:
recording, looking variables up and binding them, defining functions, finding
the callee of a call, and running something in a frame of its own.
-/

namespace TreeWalk

/-- A context, and the events so far, oldest first. -/
structure Session where
  context : Context
  log : Array Event

/-- A session in which nothing has happened yet. -/
def Session.new (limits : Limits) : Session :=
  ⟨.new limits, #[]⟩

/-- What is done with a session. -/
def Action (α : Type) : Type :=
  Session → Except StoreFault (Except RunError α × Session)

namespace Action

variable {α β : Type}

instance : Monad Action where
  pure a := fun s => .ok (.ok a, s)
  bind action next := fun s =>
    match action s with
    | .ok (.ok a, s) => next a s
    | .ok (.error cause, s) => .ok (.error cause, s)
    | .error fault => .error fault

@[simp] theorem pure_apply (a : α) (s : Session) : (pure a : Action α) s = .ok (.ok a, s) :=
  rfl

theorem bind_apply (action : Action α) (next : α → Action β) (s : Session) :
    (action >>= next) s =
      match action s with
      | .ok (.ok a, s) => next a s
      | .ok (.error cause, s) => .ok (.error cause, s)
      | .error fault => .error fault :=
  rfl

theorem map_apply (f : α → β) (action : Action α) (s : Session) :
    (f <$> action) s =
      match action s with
      | .ok (.ok a, s) => .ok (.ok (f a), s)
      | .ok (.error cause, s) => .ok (.error cause, s)
      | .error fault => .error fault :=
  rfl

instance : LawfulMonad Action :=
  LawfulMonad.mk' Action
    (fun action => by
      funext s
      simp only [map_apply, id]
      rcases action s with fault | ⟨cause | a, s⟩ <;> rfl)
    (fun _ _ => rfl)
    (fun action _ _ => by
      funext s
      simp only [bind_apply]
      rcases action s with fault | ⟨cause | a, s⟩ <;> rfl)

/-- Ends in an error of the program. -/
def fail (cause : RunError) : Action α := fun s =>
  .ok (.error cause, s)

def ofResult (result : Except RunError α) : Action α := fun s =>
  .ok (result, s)

/-- Looks at the context. -/
def context : Action Context := fun s =>
  .ok (.ok s.context, s)

/-- Asks a store of the context for something. -/
def query (ask : Context → Except StoreFault α) : Action α := fun s =>
  match ask s.context with
  | .ok a => .ok (.ok a, s)
  | .error fault => .error fault

/-- Changes the context by an operation that a store may refuse. -/
def update (change : Context → Except StoreFault (α × Context)) : Action α
  | ⟨context, log⟩ =>
      match change context with
      | .ok (a, context) => .ok (.ok a, ⟨context, log⟩)
      | .error fault => .error fault

def record (e : Event) : Action Unit
  | ⟨context, log⟩ => .ok (.ok (), ⟨context, log.push e⟩)

/-- Runs an action and gives what it ended in, so that something can follow an
    error too. -/
def attempt (action : Action α) : Action (Except RunError α) := fun s =>
  match action s with
  | .ok (result, s) => .ok (.ok result, s)
  | .error fault => .error fault

/-! ### Variables and functions -/

/-- The value of a variable as the current scope sees it. -/
def readVariable (x : Name) : Action Value := do
  match ← query fun c => c.variables.find c.scope x with
  | some v => pure v
  | none => fail (.undefinedVariable x (← query fun c => c.variables.label c.scope))

/-- Binds a variable in the current scope. -/
def bindVariable (x : Name) (v : Value) : Action Unit := do
  record (.assigned x v)
  update fun c => return ((), ← c.bind x v)

/-- Stores a function in the current table. A function without a name or with an
    empty body is refused here, not when it is called. -/
def define (name : Option Name) (parameters : List Name) (body : List Stmt) : Action Unit := do
  let some name := name | fail .namelessDefinition
  if body.isEmpty then fail (.emptyFunction name)
  let former ← update fun c => c.define name parameters body
  if let some former := former then record (.redefined former.name former.parameters)
  record (.defined name parameters.length)

/-- The function that a call reaches from the current table, if it takes this
    many arguments. -/
def callee (name : Option Name) (arguments : Nat) : Action Closure := do
  let some name := name | fail .namelessCall
  let some f ← query fun c => c.functions.find c.table name | fail (.undefinedFunction name)
  if arguments ≠ f.arity then fail (.argumentCount name f.arity arguments)
  pure f

/-! ### Frames -/

/-- Runs the body of a call in a frame of its own, which does not outlast it,
    however it ends. -/
def inFrame (f : Closure) (arguments : List Value) (body : Action α) : Action α := do
  let caller ← update fun c => c.openCall f arguments
  record (.called f.name f.parameters (← context).depth)
  let result ← attempt body
  update fun c => return ((), ← c.closeCall caller)
  ofResult result

end Action

end TreeWalk
