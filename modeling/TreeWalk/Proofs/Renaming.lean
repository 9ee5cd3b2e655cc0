-- SUMMARY: Other names for the variables and functions of a program, of frames and of errors.
import TreeWalk.Proofs.Lexical

/-! # Renaming

Variables and functions have names of their own: a name means a variable where it is a
parameter, declared or read, and a function where it is defined or called. A renaming changes
both kinds apart from each other, and keeps what was different different.

It changes nothing else. Literals are no names, even where they are written like one, and the
causes of errors keep their kinds.
-/

namespace TreeWalk

/-- New names for variables and for functions. -/
structure Renaming where
  onVariables : Name → Name
  onFunctions : Name → Name
  variables_injective : Function.Injective onVariables
  functions_injective : Function.Injective onFunctions

namespace Renaming

/-- Keeps all names. -/
def id : Renaming where
  onVariables x := x
  onFunctions x := x
  variables_injective _ _ h := h
  functions_injective _ _ h := h

@[simp] theorem onVariables_id (x : Name) : id.onVariables x = x :=
  rfl

theorem map_onVariables_id (xs : List Name) : xs.map id.onVariables = xs :=
  List.map_id xs

end Renaming

variable (ρ : Renaming)

/-! ## Syntax -/

mutual

def Expr.rename : Expr → Expr
  | .access x => .access (x.map ρ.onVariables)
  | .call name arguments => .call (name.map ρ.onFunctions) (renameAll arguments)
  | .builtIn operators operands => .builtIn operators (renameAll operands)
  | .literal v => .literal v
  | .parameter v => .parameter v
  | .malformed count => .malformed count
  | .invalid tag => .invalid tag

def Expr.renameAll : List Expr → List Expr
  | [] => []
  | e :: es => e.rename :: renameAll es

end

def Initializer.rename : Initializer → Initializer
  | .literal v => .literal v
  | .expression e => .expression (e.rename ρ)

mutual

def Stmt.rename : Stmt → Stmt
  | .functionDefinition name parameters body =>
      .functionDefinition (name.map ρ.onFunctions) (parameters.map ρ.onVariables) (renameAll body)
  | .conditional conditions body => .conditional (Expr.renameAll ρ conditions) (renameAll body)
  | .returns e => .returns (e.rename ρ)
  | .declaration x value => .declaration (x.map ρ.onVariables) (value.map (Initializer.rename ρ))
  | .expression e => .expression (e.rename ρ)
  | .malformed count => .malformed count
  | .invalid tag => .invalid tag

def Stmt.renameAll : List Stmt → List Stmt
  | [] => []
  | s :: rest => s.rename :: renameAll rest

end

def Item.rename : Item → Item
  | .functionDefinition name parameters body =>
      .functionDefinition (name.map ρ.onFunctions) (parameters.map ρ.onVariables)
        (Stmt.renameAll ρ body)
  | .conditional conditions body =>
      .conditional (Expr.renameAll ρ conditions) (Stmt.renameAll ρ body)
  | .returns e => .returns (e.rename ρ)
  | .invalid tag => .invalid tag

def Program.rename (p : Program) : Program :=
  ⟨p.items.map (Item.rename ρ)⟩

def Node.rename : Node → Node
  | .expression e => .expression (e.rename ρ)
  | .call name arguments => .call (name.map ρ.onFunctions) (Expr.renameAll ρ arguments)
  | .statement s => .statement (s.rename ρ)
  | .block body => .block (Stmt.renameAll ρ body)
  | .conditional conditions body =>
      .conditional (Expr.renameAll ρ conditions) (Stmt.renameAll ρ body)
  | .declaration x value => .declaration (x.map ρ.onVariables) (value.map (Initializer.rename ρ))
  | .definition name parameters body =>
      .definition (name.map ρ.onFunctions) (parameters.map ρ.onVariables) (Stmt.renameAll ρ body)
  | .program p => .program (p.rename ρ)

@[simp] theorem Expr.length_renameAll (es : List Expr) :
    (renameAll ρ es).length = es.length := by
  induction es with
  | nil => rfl
  | cons e es ih => rw [renameAll, List.length_cons, List.length_cons, ih]

@[simp] theorem Stmt.isEmpty_renameAll (body : List Stmt) :
    (renameAll ρ body).isEmpty = body.isEmpty := by
  cases body <;> rfl

/-! ### Keeping the names -/

mutual

@[simp] theorem Expr.rename_id (e : Expr) : e.rename .id = e := by
  cases e with
  | access x => cases x <;> rfl
  | call name arguments =>
    rw [rename, renameAll_id arguments]
    cases name <;> rfl
  | builtIn operators operands => rw [rename, renameAll_id operands]
  | literal | parameter | malformed | invalid => rfl

@[simp] theorem Expr.renameAll_id (es : List Expr) : renameAll .id es = es := by
  cases es with
  | nil => rfl
  | cons e es => rw [renameAll, rename_id e, renameAll_id es]

end

@[simp] theorem Initializer.rename_id (i : Initializer) : i.rename .id = i := by
  cases i <;> simp [rename]

mutual

@[simp] theorem Stmt.rename_id (s : Stmt) : s.rename .id = s := by
  cases s with
  | functionDefinition name parameters body =>
    rw [rename, renameAll_id body, Renaming.map_onVariables_id]
    cases name <;> rfl
  | conditional conditions body => rw [rename, Expr.renameAll_id, renameAll_id body]
  | declaration x value =>
    cases x <;> cases value <;> simp [rename]
  | returns e | expression e => simp [rename]
  | malformed | invalid => rfl

@[simp] theorem Stmt.renameAll_id (body : List Stmt) : renameAll .id body = body := by
  cases body with
  | nil => rfl
  | cons s rest => rw [renameAll, rename_id s, renameAll_id rest]

end

@[simp] theorem Item.rename_id (i : Item) : i.rename .id = i := by
  cases i with
  | functionDefinition name parameters body =>
    rw [rename, Stmt.renameAll_id, Renaming.map_onVariables_id]
    cases name <;> rfl
  | conditional conditions body => rw [rename, Expr.renameAll_id, Stmt.renameAll_id]
  | returns e => rw [rename, Expr.rename_id]
  | invalid tag => rfl

@[simp] theorem Program.rename_id (p : Program) : p.rename .id = p := by
  rw [rename, List.map_congr_left (g := fun i => i) fun i _ => i.rename_id, List.map_id']

/-! ## Errors -/

def RunError.rename : RunError → RunError
  | .undefinedVariable x owner => .undefinedVariable (ρ.onVariables x) (owner.map ρ.onFunctions)
  | .noInitializer x => .noInitializer (ρ.onVariables x)
  | .emptyFunction name => .emptyFunction (ρ.onFunctions name)
  | .undefinedFunction name => .undefinedFunction (ρ.onFunctions name)
  | .argumentCount name expected found => .argumentCount (ρ.onFunctions name) expected found
  | .tooDeep name limit => .tooDeep (ρ.onFunctions name) limit
  | .noValue name => .noValue (name.map ρ.onFunctions)
  | cause => cause

@[simp] theorem RunError.kind_rename (cause : RunError) : (cause.rename ρ).kind = cause.kind := by
  cases cause <;> rfl

@[simp] theorem RunError.rename_id (cause : RunError) : cause.rename .id = cause := by
  cases cause with
  | undefinedVariable x owner => cases owner <;> rfl
  | noValue name => cases name <;> rfl
  | _ => rfl

/-! ## Frames -/

namespace Bindings

variable {α : Type} {f : Name → Name}

/-- Changes the names that something is bound to. -/
def rename (f : Name → Name) (b : Bindings α) : Bindings α :=
  ⟨b.entries.map fun entry => (f entry.1, entry.2)⟩

theorem get?_rename (hf : Function.Injective f) (b : Bindings α) (x : Name) :
    (b.rename f).get? (f x) = b.get? x := by
  obtain ⟨entries⟩ := b
  simp only [rename, get?]
  induction entries with
  | nil => rfl
  | cons entry rest ih =>
    rw [List.map_cons, List.lookup_cons, List.lookup_cons, ih]
    by_cases h : x = entry.1
    · simp [h]
    · rw [beq_eq_false_iff_ne.mpr h, beq_eq_false_iff_ne.mpr (hf.ne h)]

theorem rename_set (hf : Function.Injective f) (b : Bindings α) (x : Name) (v : α) :
    (b.set x v).rename f = (b.rename f).set (f x) v := by
  obtain ⟨entries⟩ := b
  simp only [rename, set, Bindings.mk.injEq]
  induction entries with
  | nil => rfl
  | cons entry rest ih =>
    obtain ⟨y, w⟩ := entry
    by_cases hy : y = x
    · simp [assign, hy]
    · simp [assign, hy, hf.ne hy, ih]

end Bindings

def Routine.rename (r : Routine) : Routine :=
  { name := ρ.onFunctions r.name
    parameters := r.parameters.map ρ.onVariables
    body := Stmt.renameAll ρ r.body }

@[simp] theorem Routine.rename_id (r : Routine) : r.rename .id = r := by
  rw [rename, Renaming.map_onVariables_id, Stmt.renameAll_id]
  rfl

namespace Frame

def rename (f : Frame) : Frame :=
  { owner := f.owner.map ρ.onFunctions
    values := f.values.rename ρ.onVariables
    functions := (f.functions.map (Routine.rename ρ)).rename ρ.onFunctions }

variable {ρ}

theorem rename_declare (f : Frame) (x : Name) (v : Value) :
    (f.declare x v).rename ρ = (f.rename ρ).declare (ρ.onVariables x) v := by
  simp only [declare, rename, Bindings.rename_set ρ.variables_injective]

theorem rename_define (f : Frame) (r : Routine) :
    (f.define r).rename ρ = (f.rename ρ).define (r.rename ρ) := by
  simp only [define, rename, Bindings.map_set, Bindings.rename_set ρ.functions_injective]
  rfl

theorem rename_declareAll (f : Frame) (xs : List Name) (vs : List Value) :
    (f.declareAll xs vs).rename ρ = (f.rename ρ).declareAll (xs.map ρ.onVariables) vs := by
  induction xs generalizing f vs with
  | nil => rfl
  | cons x xs ih =>
    cases vs with
    | nil => rfl
    | cons v vs =>
      rw [declareAll, ih, rename_declare]
      rfl

theorem rename_ofCall (r : Routine) (vs : List Value) :
    (ofCall r vs).rename ρ = ofCall (r.rename ρ) vs :=
  rename_declareAll _ r.parameters vs

end Frame

end TreeWalk
