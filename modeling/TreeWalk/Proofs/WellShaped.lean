-- SUMMARY: Programs of the right shape fail only with what no shape can rule out.
import TreeWalk.Proofs.Simulation

/-! # Well-shaped programs

A program keeps whatever its document says, and evaluation complains about a shape only
when it gets there. `WellShaped` is the grammar of the programs about which there is
nothing to complain: the rules below have no node without a name, with operands that are
missing or too many, or without a body.

Functions are where the shape could get lost: a body is stored when its definition runs
and executed much later. So the invariant is about the frames, that everything they hold
is well shaped, and it is carried along with the results (`Lexical.Ending.Sound`). What
may still go wrong is what depends on values, names and depth (`ErrorKind.isDynamic`).
-/

namespace TreeWalk

variable {α β : Type}

/-! ## The grammar -/

inductive Expr.WellShaped : Expr → Prop
  | literal (v : Value) : WellShaped (.literal v)
  | parameter (v : Value) : WellShaped (.parameter v)
  | access (x : Name) : WellShaped (.access (some x))
  | call (name : Name) {arguments : List Expr} (harguments : ∀ e ∈ arguments, WellShaped e) :
      WellShaped (.call (some name) arguments)
  | builtIn (operator : Operator) {left right : Expr} (hleft : WellShaped left)
      (hright : WellShaped right) : WellShaped (.builtIn [operator] [left, right])

inductive Initializer.WellShaped : Initializer → Prop
  | literal (v : Value) : WellShaped (.literal v)
  | expression {e : Expr} (he : e.WellShaped) : WellShaped (.expression e)

inductive Stmt.WellShaped : Stmt → Prop
  | functionDefinition (name : Name) (parameters : List Name) {body : List Stmt}
      (hnonempty : body ≠ []) (hbody : ∀ s ∈ body, WellShaped s) :
      WellShaped (.functionDefinition (some name) parameters body)
  | conditional {condition : Expr} {body : List Stmt} (hcondition : condition.WellShaped)
      (hnonempty : body ≠ []) (hbody : ∀ s ∈ body, WellShaped s) :
      WellShaped (.conditional [condition] body)
  | returns {e : Expr} (he : e.WellShaped) : WellShaped (.returns e)
  | declaration (x : Name) {value : Initializer} (hvalue : value.WellShaped) :
      WellShaped (.declaration (some x) (some value))
  | expression {e : Expr} (he : e.WellShaped) : WellShaped (.expression e)

/-- A block of well-shaped statements. It may be empty: only the nodes that have a body
    must have something in it. -/
def BlockWellShaped (body : List Stmt) : Prop :=
  ∀ s ∈ body, s.WellShaped

def Item.WellShaped : Item → Prop
  | .functionDefinition name parameters body =>
      (Stmt.functionDefinition name parameters body).WellShaped
  | .conditional conditions body => (Stmt.conditional conditions body).WellShaped
  | .returns e => e.WellShaped
  | .invalid _ => False

def Program.WellShaped (p : Program) : Prop :=
  ∀ item ∈ p.items, item.WellShaped

def Node.WellShaped : Node → Prop
  | .expression e => e.WellShaped
  | .call name arguments => (Expr.call name arguments).WellShaped
  | .statement s => s.WellShaped
  | .block body => BlockWellShaped body
  | .conditional conditions body => (Stmt.conditional conditions body).WellShaped
  | .declaration name value => (Stmt.declaration name value).WellShaped
  | .definition name parameters body =>
      (Stmt.functionDefinition name parameters body).WellShaped
  | .program p => p.WellShaped

/-! ### Deciding the shape -/

mutual

def Expr.decideWellShaped : (e : Expr) → Decidable e.WellShaped
  | .literal v => isTrue (.literal v)
  | .parameter v => isTrue (.parameter v)
  | .access (some x) => isTrue (.access x)
  | .call (some name) arguments =>
      match decideAllWellShaped arguments with
      | isTrue h => isTrue (.call name h)
      | isFalse h => isFalse fun | .call _ harguments => h harguments
  | .builtIn [operator] [left, right] =>
      match left.decideWellShaped, right.decideWellShaped with
      | isTrue hleft, isTrue hright => isTrue (.builtIn operator hleft hright)
      | isFalse h, _ => isFalse fun | .builtIn _ hleft _ => h hleft
      | _, isFalse h => isFalse fun | .builtIn _ _ hright => h hright
  | .access none | .call none _ | .builtIn [] _ | .builtIn (_ :: _ :: _) _ | .builtIn [_] []
  | .builtIn [_] [_] | .builtIn [_] (_ :: _ :: _ :: _) | .malformed _ | .invalid _ =>
      isFalse nofun

def decideAllWellShaped : (es : List Expr) → Decidable (∀ e ∈ es, e.WellShaped)
  | [] => isTrue (List.forall_mem_nil _)
  | e :: es =>
      match e.decideWellShaped, decideAllWellShaped es with
      | isTrue he, isTrue hes => isTrue (List.forall_mem_cons.mpr ⟨he, hes⟩)
      | isFalse h, _ => isFalse fun hall => h (List.forall_mem_cons.mp hall).1
      | _, isFalse h => isFalse fun hall => h (List.forall_mem_cons.mp hall).2

end

instance : DecidablePred Expr.WellShaped :=
  Expr.decideWellShaped

instance : DecidablePred Initializer.WellShaped
  | .literal v => isTrue (.literal v)
  | .expression e => decidable_of_iff e.WellShaped ⟨.expression, fun | .expression he => he⟩

mutual

def Stmt.decideWellShaped : (s : Stmt) → Decidable s.WellShaped
  | .functionDefinition (some name) parameters (s :: rest) =>
      match decideBlockWellShaped (s :: rest) with
      | isTrue h => isTrue (.functionDefinition name parameters (List.cons_ne_nil _ _) h)
      | isFalse h => isFalse fun | .functionDefinition _ _ _ hbody => h hbody
  | .conditional [condition] (s :: rest) =>
      match Expr.decideWellShaped condition, decideBlockWellShaped (s :: rest) with
      | isTrue hcondition, isTrue h =>
          isTrue (.conditional hcondition (List.cons_ne_nil _ _) h)
      | isFalse h, _ => isFalse fun | .conditional hcondition _ _ => h hcondition
      | _, isFalse h => isFalse fun | .conditional _ _ hbody => h hbody
  | .returns e => decidable_of_iff e.WellShaped ⟨.returns, fun | .returns he => he⟩
  | .declaration (some x) (some value) =>
      decidable_of_iff value.WellShaped ⟨.declaration x, fun | .declaration _ hvalue => hvalue⟩
  | .expression e => decidable_of_iff e.WellShaped ⟨.expression, fun | .expression he => he⟩
  | .functionDefinition (some _) _ [] => isFalse fun | .functionDefinition _ _ h _ => h rfl
  | .conditional [_] [] => isFalse fun | .conditional _ h _ => h rfl
  | .functionDefinition none _ _ | .conditional [] _ | .conditional (_ :: _ :: _) _
  | .declaration none _ | .declaration (some _) none | .malformed _ | .invalid _ =>
      isFalse nofun

def decideBlockWellShaped : (body : List Stmt) → Decidable (BlockWellShaped body)
  | [] => isTrue (List.forall_mem_nil _)
  | s :: rest =>
      match s.decideWellShaped, decideBlockWellShaped rest with
      | isTrue hs, isTrue hrest => isTrue (List.forall_mem_cons.mpr ⟨hs, hrest⟩)
      | isFalse h, _ => isFalse fun hall => h (List.forall_mem_cons.mp hall).1
      | _, isFalse h => isFalse fun hall => h (List.forall_mem_cons.mp hall).2

end

instance : DecidablePred Stmt.WellShaped :=
  Stmt.decideWellShaped

instance : DecidablePred BlockWellShaped :=
  decideBlockWellShaped

instance : DecidablePred Item.WellShaped
  | .functionDefinition name parameters body =>
      inferInstanceAs (Decidable (Stmt.functionDefinition name parameters body).WellShaped)
  | .conditional conditions body =>
      inferInstanceAs (Decidable (Stmt.conditional conditions body).WellShaped)
  | .returns e => inferInstanceAs (Decidable e.WellShaped)
  | .invalid _ => isFalse id

instance : DecidablePred Program.WellShaped :=
  fun p => inferInstanceAs (Decidable (∀ item ∈ p.items, item.WellShaped))

/-! ### What is stored -/

/-- Everything that the frame can call is well shaped. -/
def Frame.WellShaped (f : Frame) : Prop :=
  ∀ entry ∈ f.functions.entries, BlockWellShaped entry.2.body

instance : DecidablePred Frame.WellShaped :=
  fun f => inferInstanceAs (Decidable (∀ entry ∈ f.functions.entries, BlockWellShaped entry.2.body))

structure Chain.WellShaped (chain : Chain) : Prop where
  frame : chain.frame.WellShaped
  outer : ∀ f ∈ chain.outer, f.WellShaped

theorem Chain.WellShaped.frames {chain : Chain} (h : chain.WellShaped) :
    ∀ f ∈ chain.frames, f.WellShaped :=
  List.forall_mem_cons.mpr ⟨h.frame, h.outer⟩

/-- Every function that is stored in a table is well shaped. -/
def Context.WellShaped (c : Context) : Prop :=
  ∀ (i : Nat) (t : Entry Unit Closure), c.functions.entries[i]? = some t →
    ∀ entry ∈ t.bindings.entries, BlockWellShaped entry.2.body

namespace Frame.WellShaped

variable {f : Frame}

theorem declare (hf : f.WellShaped) (x : Name) (v : Value) : (f.declare x v).WellShaped :=
  hf

theorem define (hf : f.WellShaped) {r : Routine} (hr : BlockWellShaped r.body) :
    (f.define r).WellShaped := by
  intro entry hentry
  rcases Bindings.mem_set hentry with rfl | hentry
  · exact hr
  · exact hf entry hentry

theorem ofCall (r : Routine) (arguments : List Value) :
    (Frame.ofCall r arguments).WellShaped := by
  intro entry hentry
  rw [Frame.ofCall, functions_declareAll] at hentry
  exact absurd hentry List.not_mem_nil

end Frame.WellShaped

/-- A function that is found is well shaped, and so are the frames that it lies in. -/
theorem wellShaped_of_definer? {x : Name} {frames outer : List Frame} {r : Routine}
    (hframes : ∀ f ∈ frames, f.WellShaped) (h : definer? x frames = some (r, outer)) :
    BlockWellShaped r.body ∧ ∀ f ∈ outer, f.WellShaped := by
  induction frames with
  | nil => cases h
  | cons frame rest ih =>
    unfold definer? at h
    cases hx : frame.functions.get? x with
    | some found =>
      rw [hx] at h
      cases h
      exact ⟨hframes frame List.mem_cons_self _ (Bindings.mem_of_get? hx), hframes⟩
    | none =>
      rw [hx] at h
      exact ih (fun f hf => hframes f (List.mem_cons_of_mem _ hf)) h

/-! ## Results -/

/-- What a program of the right shape may still fail with: what depends on values, on
    names and on depth. -/
def ErrorKind.isDynamic : ErrorKind → Bool
  | invalidCalculation | undefinedVariable | undefinedFunction | arityMismatch
  | stackOverflow => true
  | invalidSyntax | invalidCharacter => false

namespace Lexical

/-- The result is a value, or an error that no shape rules out. -/
def Sound (result : Except RunError α) : Prop :=
  ∀ cause, result = .error cause → cause.kind.isDynamic = true

namespace Sound

theorem ok (a : α) : Sound (.ok a) :=
  fun _ h => nomatch h

theorem error {cause : RunError} (h : cause.kind.isDynamic = true) :
    Sound (.error cause : Except RunError α) := by
  intro cause' heq
  cases heq
  exact h

theorem bind {result : Except RunError α} {next : α → Except RunError β} (h : Sound result)
    (hnext : ∀ a, Sound (next a)) : Sound (result >>= next) := by
  cases result with
  | error cause => exact error (h cause rfl)
  | ok a => exact hnext a

theorem map {result : Except RunError α} (h : Sound result) (f : α → β) :
    Sound (result.map f) := by
  cases result with
  | error cause => exact error (h cause rfl)
  | ok a => exact ok (f a)

end Sound

/-- The result is sound, and so is what the frame holds after it. -/
def Ending.Sound (ending : Ending) : Prop :=
  Lexical.Sound ending.1 ∧ ending.2.WellShaped

theorem Ending.Sound.andThen {ending : Ending} (h : ending.Sound) {following : Frame → Ending}
    (hfollowing : ∀ frame : Frame, frame.WellShaped → (following frame).Sound) :
    (ending.andThen following).Sound := by
  obtain ⟨cause | v | _, frame⟩ := ending
  · exact h
  · exact hfollowing frame h.2
  · exact h

/-- Well-shaped functions in well-shaped frames give sound results. -/
def Caller.Sound (caller : Caller) : Prop :=
  ∀ (r : Routine) (outer : List Frame) (values : Except RunError (List Value)),
    BlockWellShaped r.body → (∀ f ∈ outer, f.WellShaped) → Lexical.Sound values →
      Lexical.Sound (caller r outer values)

/-! ## Operators -/

theorem add_sound (l r : Number) : Sound (l.add r) := by
  unfold Number.add
  split
  · exact .ok _
  · exact .error rfl

theorem sub_sound (l r : Number) : Sound (l.sub r) := by
  unfold Number.sub
  split
  · exact .ok _
  · exact .error rfl

theorem asNumber_sound (v : Value) : Sound v.asNumber := by
  cases v with
  | number n => exact .ok n
  | string | boolean => exact .error rfl

theorem apply_sound (operator : Operator) (l r : Value) : Sound (operator.apply l r) := by
  cases operator with
  | equality => exact .ok _
  | minus =>
    refine (asNumber_sound l).bind fun m => (asNumber_sound r).bind fun n => ?_
    exact (sub_sound m n).bind fun difference => .ok _
  | plus =>
    unfold Operator.apply
    split
    · next h => cases h
    · exact (add_sound _ _).map _
    · exact .ok _
    · exact .error rfl
    · next h => cases h

/-! ## Syntax -/

section Syntax

variable {caller : Caller} {chain : Chain} {outer : List Frame}

theorem call_sound (hcaller : caller.Sound) (hchain : chain.WellShaped)
    (name : Name) (count : Nat) {values : Except RunError (List Value)} (hvalues : Sound values) :
    Sound (call caller chain (some name) count values) := by
  cases hfound : definer? name chain.frames with
  | none =>
    simp only [call, hfound]
    exact .error rfl
  | some found =>
    obtain ⟨r, outer⟩ := found
    obtain ⟨hbody, houter⟩ := wellShaped_of_definer? hchain.frames hfound
    simp only [call, hfound]
    split
    · exact hcaller r outer values hbody houter hvalues
    · exact .error rfl

theorem evaluateAll_sound {es : List Expr} (h : ∀ e ∈ es, Sound (evaluate caller chain e)) :
    Sound (evaluateAll caller chain es) := by
  induction es with
  | nil => exact .ok []
  | cons e es ih =>
    refine (h e List.mem_cons_self).bind fun v => ?_
    exact (ih fun e he => h e (List.mem_cons_of_mem _ he)).bind fun vs => .ok (v :: vs)

theorem evaluate_sound (hcaller : caller.Sound) (hchain : chain.WellShaped)
    {e : Expr} (he : e.WellShaped) : Sound (evaluate caller chain e) := by
  induction he with
  | literal v => exact .ok v
  | parameter v => exact .ok v
  | access x =>
    rw [evaluate]
    split
    · exact .ok _
    · exact .error rfl
  | @call name arguments _ ih =>
    rw [evaluate]
    refine (call_sound hcaller hchain name _ (evaluateAll_sound ih)).bind fun value => ?_
    split
    · exact .ok _
    · exact .error rfl
  | builtIn operator _ _ ihl ihr =>
    exact ihl.bind fun l => ihr.bind fun r => apply_sound operator l r

theorem initial_sound (hcaller : caller.Sound) (hchain : chain.WellShaped)
    {value : Initializer} (hvalue : value.WellShaped) : Sound (initial caller chain value) := by
  cases hvalue with
  | literal v => exact .ok v
  | expression he => exact evaluate_sound hcaller hchain he

theorem discard_sound (hcaller : caller.Sound) (hchain : chain.WellShaped)
    {e : Expr} (he : e.WellShaped) : Sound (discard caller chain e) := by
  have hvalue : Sound (do let _ ← evaluate caller chain e) :=
    (evaluate_sound hcaller hchain he).bind fun _ => .ok ()
  cases he with
  | call name harguments =>
    have hall := evaluateAll_sound fun e he => evaluate_sound hcaller hchain (harguments e he)
    exact (call_sound hcaller hchain name _ hall).bind fun _ => .ok ()
  | literal | parameter | access | builtIn => exact hvalue

theorem executeAll_sound {body : List Stmt}
    (h : ∀ s ∈ body, ∀ frame : Frame, frame.WellShaped → (execute caller outer s frame).Sound)
    {frame : Frame} (hframe : frame.WellShaped) :
    (executeAll caller outer body frame).Sound := by
  induction body generalizing frame with
  | nil => exact ⟨.ok none, hframe⟩
  | cons s rest ih =>
    exact (h s List.mem_cons_self frame hframe).andThen
      fun _ hnext => ih (fun s hs => h s (List.mem_cons_of_mem _ hs)) hnext

theorem define_sound (name : Name) (parameters : List Name) {body : List Stmt}
    (hnonempty : body ≠ []) (hbody : BlockWellShaped body) {frame : Frame}
    (hframe : frame.WellShaped) : (define frame (some name) parameters body).Sound := by
  rw [define, if_neg (by simpa using hnonempty)]
  exact ⟨.ok none, hframe.define hbody⟩

theorem choose_sound (hcaller : caller.Sound) (hchain : chain.WellShaped)
    {condition : Expr} {body : List Stmt} (hcondition : condition.WellShaped)
    (hnonempty : body ≠ []) {runBody : Frame → Ending} (hbody : (runBody chain.frame).Sound) :
    (choose caller chain [condition] body runBody).Sound := by
  have hvalue := evaluate_sound hcaller hchain hcondition
  have hbind : theCondition [condition] body >>= evaluate caller chain =
      evaluate caller chain condition := by
    rw [theCondition_of_body condition hnonempty]
    rfl
  rw [choose, hbind]
  cases hv : evaluate caller chain condition with
  | error cause => exact ⟨.error (hvalue cause hv), hchain.frame⟩
  | ok v =>
    cases htruthy : v.truthy with
    | true => simpa [htruthy] using hbody
    | false => simpa [htruthy] using ⟨.ok none, hchain.frame⟩

theorem declare_sound (hcaller : caller.Sound) (hchain : chain.WellShaped)
    (x : Name) {value : Initializer} (hvalue : value.WellShaped) :
    (declare caller chain (some x) (some value)).Sound := by
  rw [declare]
  cases hv : initial caller chain value with
  | error cause => exact ⟨.error (initial_sound hcaller hchain hvalue cause hv), hchain.frame⟩
  | ok v => exact ⟨.ok none, hchain.frame.declare x v⟩

theorem execute_sound (hcaller : caller.Sound) (houter : ∀ f ∈ outer, f.WellShaped)
    {s : Stmt} (hs : s.WellShaped) {frame : Frame} (hframe : frame.WellShaped) :
    (execute caller outer s frame).Sound := by
  induction hs generalizing frame with
  | functionDefinition name parameters hnonempty hbody =>
    exact define_sound name parameters hnonempty hbody hframe
  | conditional hcondition hnonempty _ ih =>
    exact choose_sound hcaller ⟨hframe, houter⟩ hcondition hnonempty
      (executeAll_sound (fun s hs _ => ih s hs) hframe)
  | returns he => exact ⟨(evaluate_sound hcaller ⟨hframe, houter⟩ he).map some, hframe⟩
  | declaration x hvalue => exact declare_sound hcaller ⟨hframe, houter⟩ x hvalue
  | expression he =>
    exact ⟨(discard_sound hcaller ⟨hframe, houter⟩ he).map fun _ => none, hframe⟩

theorem executeBlock_sound (hcaller : caller.Sound) (houter : ∀ f ∈ outer, f.WellShaped)
    {body : List Stmt} (hbody : BlockWellShaped body) {frame : Frame}
    (hframe : frame.WellShaped) : (executeAll caller outer body frame).Sound :=
  executeAll_sound (fun s hs _ => execute_sound hcaller houter (hbody s hs)) hframe

theorem executeItem_sound (hcaller : caller.Sound) (houter : ∀ f ∈ outer, f.WellShaped)
    {item : Item} (hitem : item.WellShaped) {frame : Frame} (hframe : frame.WellShaped) :
    (executeItem caller outer item frame).Sound := by
  -- an item that is well shaped does what the statement of its kind does
  cases item with
  | functionDefinition => exact execute_sound hcaller houter hitem hframe
  | conditional => exact execute_sound hcaller houter hitem hframe
  | returns e => exact execute_sound hcaller houter (.returns hitem) hframe
  | invalid tag => exact hitem.elim

theorem executeItems_sound (hcaller : caller.Sound) (houter : ∀ f ∈ outer, f.WellShaped)
    {items : List Item} (hitems : ∀ item ∈ items, item.WellShaped) {frame : Frame}
    (hframe : frame.WellShaped) : (executeItems caller outer items frame).Sound := by
  induction items generalizing frame with
  | nil => exact ⟨.ok none, hframe⟩
  | cons item rest ih =>
    exact (executeItem_sound hcaller houter (hitems item List.mem_cons_self) hframe).andThen
      fun _ hnext => ih (fun item h => hitems item (List.mem_cons_of_mem _ h)) hnext

theorem run_sound (hcaller : caller.Sound) (hchain : chain.WellShaped) {n : Node}
    (hn : n.WellShaped) : (run caller chain n).Sound := by
  cases n with
  | expression e => exact ⟨(evaluate_sound hcaller hchain hn).map some, hchain.frame⟩
  | call name arguments =>
    cases hn with
    | call name harguments =>
      have hall := evaluateAll_sound fun e he => evaluate_sound hcaller hchain (harguments e he)
      exact ⟨call_sound hcaller hchain name _ hall, hchain.frame⟩
  | statement s => exact execute_sound hcaller hchain.outer hn hchain.frame
  | block body => exact executeBlock_sound hcaller hchain.outer hn hchain.frame
  | conditional => exact execute_sound hcaller hchain.outer hn hchain.frame
  | declaration => exact execute_sound hcaller hchain.outer hn hchain.frame
  | definition => exact execute_sound hcaller hchain.outer hn hchain.frame
  | program p => exact executeItems_sound hcaller hchain.outer hn hchain.frame

end Syntax

/-! ## Calls -/

theorem caller_sound (limit headroom : Nat) : (caller limit headroom).Sound := by
  induction headroom with
  | zero =>
    intro r outer values hbody houter hvalues
    exact .error rfl
  | succ headroom ih =>
    intro r outer values hbody houter hvalues
    exact hvalues.bind fun vs => (executeBlock_sound ih houter hbody (.ofCall r vs)).1

end Lexical

/-! ## Runs -/

namespace Context.WellShaped

variable {c : Context}

theorem frameAt (hc : c.WellShaped) (i : Nat) : (c.frameAt i).WellShaped := by
  intro entry hentry
  unfold Context.frameAt at hentry
  cases ht : c.functions.entries[i]? with
  | none =>
    rw [ht] at hentry
    exact absurd hentry List.not_mem_nil
  | some t =>
    rw [ht] at hentry
    obtain ⟨stored, hstored, rfl⟩ := List.mem_map.mp hentry
    exact hc i t ht stored hstored

theorem chain (hc : c.WellShaped) : c.chain.WellShaped where
  frame := hc.frameAt c.scope
  outer := by
    intro f hf
    obtain ⟨i, -, rfl⟩ := List.mem_map.mp hf
    exact hc.frameAt i

theorem withFrame (hc : c.WellShaped) {f : Frame} (hf : f.WellShaped) :
    (c.withFrame f).WellShaped := by
  intro i t ht entry hentry
  simp only [Context.withFrame, Store.getElem?_overwrite] at ht
  split at ht
  · obtain ⟨t₀, -, rfl⟩ := Option.map_eq_some_iff.mp ht
    obtain ⟨defined, hdefined, rfl⟩ := List.mem_map.mp hentry
    exact hf defined hdefined
  · exact hc i t ht entry hentry

theorem extend (hc : c.WellShaped) (place : Nat) (owner : Option Name) :
    (c.extend place owner).WellShaped := by
  intro i t ht entry hentry
  simp only [Context.extend, Store.getElem?_extend] at ht
  split at ht
  · cases ht
    exact absurd hentry List.not_mem_nil
  · exact hc i t ht entry hentry

/-- Opening a call adds a frame that holds no functions. -/
theorem opened (hc : c.WellShaped) (f : Closure) (arguments : List Value) :
    (c.opened f arguments).WellShaped := by
  have hextend : ({ (c.extend f.scope (some f.name)).moveTo c.variables.size with
      depth := c.depth + 1 } : Context).WellShaped := hc.extend f.scope (some f.name)
  exact hextend.withFrame (.ofCall f.routine arguments)

end Context.WellShaped

theorem Context.wellShaped_new (limits : Limits) : (Context.new limits).WellShaped := by
  intro i t ht entry hentry
  cases i with
  | zero =>
    cases ht
    exact absurd hentry List.not_mem_nil
  | succ i => cases ht

/-- A program of the right shape ends in a value or in an error that no shape rules out.
    So does every part of it that runs where all stored functions are well shaped, and they
    are so afterwards too. -/
theorem wellShaped_fails_dynamically :
    (∀ p : Program, p.WellShaped → ∀ limits log,
      (∃ value, (p.runAfter limits log).outcome = .finished value) ∨
      ∃ e, (p.runAfter limits log).outcome = .failed e ∧ e.kind.isDynamic = true) ∧
    (∀ c : Context, c.Mirrored → c.WellShaped → ∀ n : Node, n.WellShaped → ∀ log,
      ∃ result s, n.run ⟨c, log⟩ = .ok (result, s) ∧
        (∀ cause, result = .error cause → cause.kind.isDynamic = true) ∧
        s.context.Mirrored ∧ s.context.WellShaped) := by
  constructor
  · intro p hp limits log
    have hroot : Chain.root.WellShaped :=
      ⟨fun _ h => absurd h List.not_mem_nil, fun _ h => absurd h List.not_mem_nil⟩
    have hnode : (Node.program p).WellShaped := hp
    have hcaller := Lexical.caller_sound limits.maxCallDepth limits.maxCallDepth
    have hsound := (Lexical.run_sound hcaller hroot hnode).1
    rw [p.outcome_runAfter, Program.outcome]
    cases hresult : (Lexical.run (Lexical.caller limits.maxCallDepth limits.maxCallDepth) .root
        (.program p)).1 with
    | ok value => exact .inl ⟨value, rfl⟩
    | error cause => exact .inr ⟨cause.report, rfl, hsound cause hresult⟩
  · intro c hc hshaped n hn log
    have hsound : (c.ending n).Sound :=
      Lexical.run_sound (Lexical.caller_sound _ _) hshaped.chain hn
    obtain ⟨log', hrun⟩ := n.run_endsIn hc.toAligned log
    have hnamed := Lexical.named_run c.caller hc.named_frame n
    exact ⟨_, _, hrun, hsound.1, hc.withFrame hnamed, hshaped.withFrame hsound.2⟩

/-- A function that reads a variable which is bound nowhere when it is called. -/
def early : Program :=
  ⟨[.functionDefinition (some "f") ["x"] [
      .returns (.builtIn [.plus] [.access (some "x"), .access (some "y")])],
    .returns (.call (some "f") [.literal (.boolean true)])]⟩

theorem Context.wellShaped_sample : Context.sample.WellShaped := by
  have hroot : sampleRoot.WellShaped := by decide
  exact ((Context.wellShaped_new ⟨4⟩).withFrame hroot).opened sampleClosure _

theorem wellShaped_fails_dynamically_early :
    early.WellShaped ∧
      (∃ e, (early.run ⟨1⟩).outcome = .failed e ∧ e.kind.isDynamic = true) ∧
      Context.sample.Mirrored ∧ Context.sample.WellShaped ∧ sampleBlock.WellShaped ∧
      ∃ result s, sampleBlock.run ⟨.sample, #[]⟩ = .ok (result, s) ∧ s.context.WellShaped := by
  have hearly : early.WellShaped := by decide
  have hblock : sampleBlock.WellShaped := by
    change BlockWellShaped _
    decide
  have hsample := Context.wellShaped_sample
  refine ⟨hearly, ?_, Context.mirrored_sample, hsample, hblock, ?_⟩
  · rcases wellShaped_fails_dynamically.1 early hearly ⟨1⟩ #[] with ⟨value, hvalue⟩ | hfailed
    · rw [early.outcome_runAfter] at hvalue
      cases hvalue
    · exact hfailed
  · obtain ⟨result, s, hrun, -, -, hshaped⟩ :=
      wellShaped_fails_dynamically.2 .sample Context.mirrored_sample hsample sampleBlock hblock #[]
    exact ⟨result, s, hrun, hshaped⟩

end TreeWalk
