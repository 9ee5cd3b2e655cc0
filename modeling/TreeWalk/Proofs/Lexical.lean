-- SUMMARY: Evaluation over chains of frames that are values: no stores, no indices, no record of events.
import TreeWalk.Proofs.Node

/-! # Lexical evaluation

The language once more, without the machinery. A frame holds what one call binds,
and a chain is the current frame with the frames that it lies in, up to the root.
Names are looked up along the chain. A call runs its body on a new frame in front
of the part of the caller's chain that starts where the function was found, and
nothing of that chain outlasts the call.

Expressions leave no trace, so they are evaluated to a result alone. Statements
also give the current frame as they leave it: no statement changes an outer one.
The recursion has the shape of `TreeWalk.Evaluation`: on the syntax, with the
calls as a parameter, and on the calls that may still be opened.
-/

namespace TreeWalk

/-- A function as a frame knows it: a closure without its place. -/
structure Routine where
  name : Name
  parameters : List Name
  body : List Stmt

structure Frame where
  /-- the function that was called, unless this is the root -/
  owner : Option Name
  values : Bindings Value
  functions : Bindings Routine

namespace Frame

def declare (f : Frame) (x : Name) (v : Value) : Frame :=
  { f with values := f.values.set x v }

def define (f : Frame) (r : Routine) : Frame :=
  { f with functions := f.functions.set r.name r }

/-- Binds parameters to arguments in order, so that of a repeated parameter the
    last one stays. -/
def declareAll (f : Frame) : List Name → List Value → Frame
  | x :: xs, v :: vs => (f.declare x v).declareAll xs vs
  | _, _ => f

/-- The frame that a call starts with. -/
def ofCall (r : Routine) (arguments : List Value) : Frame :=
  { owner := some r.name, values := .empty, functions := .empty : Frame }.declareAll
    r.parameters arguments

end Frame

/-- The current frame, and the frames that it lies in, the root last. -/
structure Chain where
  frame : Frame
  outer : List Frame

namespace Chain

/-- The chain that a program starts on. -/
def root : Chain :=
  { frame := ⟨none, .empty, .empty⟩, outer := [] }

def frames (c : Chain) : List Frame :=
  c.frame :: c.outer

def lookup (c : Chain) (x : Name) : Option Value :=
  c.frames.findSome? fun f => f.values.get? x

end Chain

/-- The nearest function of this name, and the frames from the one that holds it. -/
def definer? (x : Name) : List Frame → Option (Routine × List Frame)
  | [] => none
  | frame :: outer =>
      match frame.functions.get? x with
      | some r => some (r, frame :: outer)
      | none => definer? x outer

namespace Lexical

/-- How a call goes on when its function is found: with the frames from the one
    that holds it, and what the arguments come to. -/
abbrev Caller :=
  Routine → List Frame → Except RunError (List Value) → Except RunError (Option Value)

/-- What a statement ends in, and the current frame as it leaves it. -/
abbrev Ending := Except RunError (Option Value) × Frame

/-- Goes on from the frame that a statement leaves, unless it returned or failed. -/
def Ending.andThen (ending : Ending) (following : Frame → Ending) : Ending :=
  match ending with
  | (.ok none, frame) => following frame
  | ending => ending

/-! ### Expressions -/

def call (caller : Caller) (chain : Chain) (name : Option Name) (count : Nat)
    (arguments : Except RunError (List Value)) : Except RunError (Option Value) :=
  match name with
  | none => .error .namelessCall
  | some name =>
      match definer? name chain.frames with
      | none => .error (.undefinedFunction name)
      | some (r, outer) =>
          if count = r.parameters.length then caller r outer arguments
          else .error (.argumentCount name r.parameters.length count)

mutual

def evaluate (caller : Caller) (chain : Chain) : Expr → Except RunError Value
  | .literal v => .ok v
  | .parameter v => .ok v
  | .access none => .error .namelessAccess
  | .access (some x) =>
      match chain.lookup x with
      | some v => .ok v
      | none => .error (.undefinedVariable x chain.frame.owner)
  | .call name arguments => do
      match ← call caller chain name arguments.length (evaluateAll caller chain arguments) with
      | some v => .ok v
      | none => .error (.noValue name)
  | .builtIn [operator] [left, right] => do
      let l ← evaluate caller chain left
      let r ← evaluate caller chain right
      operator.apply l r
  | .builtIn operators operands => .error (builtInFault operators operands.length)
  | .malformed count => .error (.malformedExpression count)
  | .invalid tag => .error (.invalidExpression tag)

def evaluateAll (caller : Caller) (chain : Chain) : List Expr → Except RunError (List Value)
  | [] => .ok []
  | e :: es => do
      let v ← evaluate caller chain e
      let vs ← evaluateAll caller chain es
      .ok (v :: vs)

end

/-! ### Statements -/

def initial (caller : Caller) (chain : Chain) : Initializer → Except RunError Value
  | .literal v => .ok v
  | .expression e => evaluate caller chain e

def declare (caller : Caller) (chain : Chain) (name : Option Name) (value : Option Initializer) :
    Ending :=
  match name, value with
  | none, _ => (.error .namelessDeclaration, chain.frame)
  | some x, none => (.error (.noInitializer x), chain.frame)
  | some x, some value =>
      match initial caller chain value with
      | .ok v => (.ok none, chain.frame.declare x v)
      | .error cause => (.error cause, chain.frame)

def define (frame : Frame) (name : Option Name) (parameters : List Name) (body : List Stmt) :
    Ending :=
  match name with
  | none => (.error .namelessDefinition, frame)
  | some name =>
      if body.isEmpty then (.error (.emptyFunction name), frame)
      else (.ok none, frame.define ⟨name, parameters, body⟩)

/-- An expression run for what it does, which is to fail or not. -/
def discard (caller : Caller) (chain : Chain) : Expr → Except RunError Unit
  | .call name arguments => do
      let _ ← call caller chain name arguments.length (evaluateAll caller chain arguments)
  | e => do
      let _ ← evaluate caller chain e

/-- A conditional, given what its body does to the current frame. -/
def choose (caller : Caller) (chain : Chain) (conditions : List Expr) (body : List Stmt)
    (runBody : Frame → Ending) : Ending :=
  match theCondition conditions body >>= evaluate caller chain with
  | .ok v => if v.truthy then runBody chain.frame else (.ok none, chain.frame)
  | .error cause => (.error cause, chain.frame)

mutual

def execute (caller : Caller) (outer : List Frame) : Stmt → Frame → Ending
  | .functionDefinition name parameters body, frame => define frame name parameters body
  | .conditional conditions body, frame =>
      choose caller ⟨frame, outer⟩ conditions body (executeAll caller outer body)
  | .returns e, frame => ((evaluate caller ⟨frame, outer⟩ e).map some, frame)
  | .declaration name value, frame => declare caller ⟨frame, outer⟩ name value
  | .expression e, frame => ((discard caller ⟨frame, outer⟩ e).map fun _ => none, frame)
  | .malformed count, frame => (.error (.malformedStatement count), frame)
  | .invalid tag, frame => (.error (.invalidStatement tag), frame)

def executeAll (caller : Caller) (outer : List Frame) : List Stmt → Frame → Ending
  | [], frame => (.ok none, frame)
  | s :: rest, frame =>
      (execute caller outer s frame).andThen (executeAll caller outer rest)

end

/-! ### Calls and programs -/

/-- Opens calls as long as the headroom lasts; `limit` is what a call that is too
    deep is told. -/
def caller (limit : Nat) : (headroom : Nat) → Caller
  | 0, r, _, _ => .error (.tooDeep r.name limit)
  | headroom + 1, r, outer, arguments => do
      let values ← arguments
      (executeAll (caller limit headroom) outer r.body (.ofCall r values)).1

def executeItem (caller : Caller) (outer : List Frame) : Item → Frame → Ending
  | .functionDefinition name parameters body, frame => define frame name parameters body
  | .conditional conditions body, frame =>
      choose caller ⟨frame, outer⟩ conditions body (executeAll caller outer body)
  | .returns e, frame => ((evaluate caller ⟨frame, outer⟩ e).map some, frame)
  | .invalid tag, frame => (.error (.invalidItem tag), frame)

def executeItems (caller : Caller) (outer : List Frame) : List Item → Frame → Ending
  | [], frame => (.ok none, frame)
  | item :: rest, frame =>
      (executeItem caller outer item frame).andThen (executeItems caller outer rest)

/-- What a node ends in on a chain, and the current frame as it leaves it. -/
def run (caller : Caller) (chain : Chain) : Node → Ending
  | .expression e => ((evaluate caller chain e).map some, chain.frame)
  | .call name arguments =>
      (call caller chain name arguments.length (evaluateAll caller chain arguments), chain.frame)
  | .statement s => execute caller chain.outer s chain.frame
  | .block body => executeAll caller chain.outer body chain.frame
  | .conditional conditions body =>
      choose caller chain conditions body (executeAll caller chain.outer body)
  | .declaration name value => declare caller chain name value
  | .definition name parameters body => define chain.frame name parameters body
  | .program p => executeItems caller chain.outer p.items chain.frame

end Lexical

/-! ## Sequences and conditionals -/

/-- With one condition and a body there is nothing wrong with a conditional. -/
theorem theCondition_of_body (condition : Expr) {body : List Stmt} (hbody : body ≠ []) :
    theCondition [condition] body = .ok condition := by
  cases body with
  | nil => exact absurd rfl hbody
  | cons s rest => rfl

namespace Lexical

theorem Ending.andThen_of_error {ending : Ending} {cause : RunError} (h : ending.1 = .error cause)
    (following : Frame → Ending) : (ending.andThen following).1 = .error cause := by
  obtain ⟨result, frame⟩ := ending
  cases h
  rfl

theorem Ending.andThen_assoc (ending : Ending) (next last : Frame → Ending) :
    (ending.andThen next).andThen last = ending.andThen fun frame => (next frame).andThen last := by
  obtain ⟨cause | v | _, frame⟩ := ending <;> rfl

theorem executeAll_append (caller : Caller) (outer : List Frame) (earlier later : List Stmt)
    (frame : Frame) :
    executeAll caller outer (earlier ++ later) frame =
      (executeAll caller outer earlier frame).andThen (executeAll caller outer later) := by
  induction earlier generalizing frame with
  | nil => rfl
  | cons s earlier ih =>
    simp only [List.cons_append, executeAll, Ending.andThen_assoc]
    exact congrArg _ (funext ih)

end Lexical

/-! ## Names of functions

Frames hold every function under its own name, and nothing that is executed puts
one under another. -/

namespace Frame

/-- Every function of the frame is bound to its own name. -/
def Named (f : Frame) : Prop :=
  ∀ entry ∈ f.functions.entries, entry.2.name = entry.1

theorem Named.define {f : Frame} (hf : f.Named) (r : Routine) : (f.define r).Named := by
  intro entry hentry
  rcases Bindings.mem_set hentry with rfl | hentry
  · rfl
  · exact hf entry hentry

theorem functions_declareAll (f : Frame) (xs : List Name) (vs : List Value) :
    (f.declareAll xs vs).functions = f.functions := by
  induction xs generalizing f vs with
  | nil => rfl
  | cons x xs ih =>
    cases vs with
    | nil => rfl
    | cons v vs => exact ih (f.declare x v) vs

theorem named_ofCall (r : Routine) (arguments : List Value) : (ofCall r arguments).Named := by
  intro entry hentry
  rw [ofCall, functions_declareAll] at hentry
  exact absurd hentry List.not_mem_nil

end Frame

namespace Lexical

variable {frame : Frame}

theorem named_define (hf : frame.Named) (name : Option Name) (parameters : List Name)
    (body : List Stmt) : (define frame name parameters body).2.Named := by
  cases name with
  | none => exact hf
  | some name =>
    rw [define]
    split
    · exact hf
    · exact hf.define _

theorem named_declare {chain : Chain} (hf : chain.frame.Named) (caller : Caller)
    (name : Option Name) (value : Option Initializer) :
    (declare caller chain name value).2.Named := by
  unfold declare
  split
  · exact hf
  · exact hf
  · split <;> exact hf

theorem named_choose {chain : Chain} (hf : chain.frame.Named) (caller : Caller)
    (conditions : List Expr) (body : List Stmt) {runBody : Frame → Ending}
    (hbody : (runBody chain.frame).2.Named) :
    (choose caller chain conditions body runBody).2.Named := by
  unfold choose
  split
  · split
    · exact hbody
    · exact hf
  · exact hf

theorem named_andThen {ending : Ending} (hf : ending.2.Named) {following : Frame → Ending}
    (hfollowing : ∀ frame : Frame, frame.Named → (following frame).2.Named) :
    (ending.andThen following).2.Named := by
  unfold Ending.andThen
  split
  · exact hfollowing _ hf
  · exact hf

mutual

theorem named_execute (caller : Caller) (outer : List Frame) (s : Stmt) {frame : Frame}
    (hf : frame.Named) : (execute caller outer s frame).2.Named := by
  cases s with
  | functionDefinition name parameters body => exact named_define hf name parameters body
  | conditional conditions body =>
    exact named_choose hf caller conditions body (named_executeAll caller outer body hf)
  | declaration name value => exact named_declare hf caller name value
  | returns | expression | malformed | invalid => exact hf

theorem named_executeAll (caller : Caller) (outer : List Frame) (body : List Stmt) {frame : Frame}
    (hf : frame.Named) : (executeAll caller outer body frame).2.Named := by
  cases body with
  | nil => exact hf
  | cons s rest =>
    exact named_andThen (named_execute caller outer s hf)
      fun _ hframe => named_executeAll caller outer rest hframe

end

theorem named_executeItem (caller : Caller) (outer : List Frame) (item : Item)
    (hf : frame.Named) : (executeItem caller outer item frame).2.Named := by
  cases item with
  | functionDefinition name parameters body => exact named_define hf name parameters body
  | conditional conditions body =>
    exact named_choose hf caller conditions body (named_executeAll caller outer body hf)
  | returns | invalid => exact hf

theorem named_executeItems (caller : Caller) (outer : List Frame) (items : List Item)
    (hf : frame.Named) : (executeItems caller outer items frame).2.Named := by
  induction items generalizing frame with
  | nil => exact hf
  | cons item rest ih =>
    exact named_andThen (named_executeItem caller outer item hf) fun _ hframe => ih hframe

theorem named_run (caller : Caller) {chain : Chain} (hf : chain.frame.Named) (n : Node) :
    (run caller chain n).2.Named := by
  cases n with
  | expression | call => exact hf
  | statement s => exact named_execute caller chain.outer s hf
  | block body => exact named_executeAll caller chain.outer body hf
  | conditional conditions body =>
    exact named_choose hf caller conditions body (named_executeAll caller chain.outer body hf)
  | declaration name value => exact named_declare hf caller name value
  | definition name parameters body => exact named_define hf name parameters body
  | program p => exact named_executeItems caller chain.outer p.items hf

end Lexical

end TreeWalk
