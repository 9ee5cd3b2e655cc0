-- SUMMARY: Contexts whose stores are in step, the chain of frames that they stand for, and what the operations on contexts do to it.
import TreeWalk.Proofs.Ancestry
import TreeWalk.Proofs.Lexical

/-! # Mirrored contexts

A closure holds indices into two stores that grow and shrink while it is stored.
It is safe because the stores move in step: a scope and a table with one index
belong to one frame. `Context.Mirrored` says so, together with what a lookup needs
of the parents; `Context.Aligned` is the part of it that evaluation relies on.

Such a context stands for a chain of frames (`Context.chain`). Every operation of
`TreeWalk.Context` is then a change of the current frame (`Context.withFrame`), or
opens a frame that can be closed again without a trace (`Context.opened`).
-/

namespace TreeWalk

/-- A closure without its place. -/
def Closure.routine (f : Closure) : Routine :=
  { name := f.name, parameters := f.parameters, body := f.body }

/-- The closure of a routine that was defined in the frame with this index. -/
def Routine.closure (r : Routine) (place : Nat) : Closure :=
  { name := r.name, parameters := r.parameters, body := r.body, scope := place, table := place }

/-- The scope and the table of a closure are of one frame, which is there. -/
def Closure.PlacedIn (f : Closure) (c : Context) : Prop :=
  f.table = f.scope ∧ f.scope < c.variables.size

namespace Context

/-! ## Invariants -/

/-- The stores of a context are in step. -/
structure Aligned (c : Context) : Prop where
  size_eq : c.functions.size = c.variables.size
  table_eq : c.table = c.scope
  scope_lt : c.scope < c.variables.size
  parent_eq : ∀ i, c.functions.parent? i = c.variables.parent? i
  grounded : c.variables.Grounded
  placed : ∀ (i : Nat) (t : Entry Unit Closure), c.functions.entries[i]? = some t →
    ∀ entry ∈ t.bindings.entries, entry.2.table = i ∧ entry.2.scope = i

/-- The stores are in step, only the root has no parent, and every function is
    stored under its own name. -/
structure Mirrored (c : Context) : Prop extends c.Aligned where
  parent?_eq_none_iff : ∀ i < c.variables.size, c.variables.parent? i = none ↔ i = 0
  named : ∀ (i : Nat) (t : Entry Unit Closure), c.functions.entries[i]? = some t →
    ∀ entry ∈ t.bindings.entries, entry.2.name = entry.1

/-! ## The chain of frames -/

/-- The frame with this index: what the scope and the table hold, without places. -/
def frameAt (c : Context) (i : Nat) : Frame :=
  { owner := c.variables.entries[i]?.bind Entry.label
    values := (c.variables.entries[i]?.map Entry.bindings).getD .empty
    functions := ((c.functions.entries[i]?.map Entry.bindings).getD .empty).map Closure.routine }

/-- The frames from the one with this index up to the root. -/
def framesFrom (c : Context) (i : Nat) : List Frame :=
  (i :: c.variables.ancestors i).map c.frameAt

/-- The frames that the current scope and table see. -/
def chain (c : Context) : Chain :=
  { frame := c.frameAt c.scope, outer := (c.variables.ancestors c.scope).map c.frameAt }

/-- Replaces what the current frame holds. -/
def withFrame (c : Context) (f : Frame) : Context :=
  { c with
    «variables» := c.variables.overwrite c.scope f.owner f.values
    functions := c.functions.overwrite c.table () (f.functions.map fun r => r.closure c.scope) }

theorem get?_values_frameAt (c : Context) (i : Nat) (x : Name) :
    (c.frameAt i).values.get? x = c.variables.get? i x := by
  unfold frameAt Store.get?
  cases c.variables.entries[i]? <;> rfl

theorem get?_functions_frameAt (c : Context) (i : Nat) (x : Name) :
    (c.frameAt i).functions.get? x = (c.functions.get? i x).map Closure.routine := by
  unfold frameAt Store.get?
  rw [Bindings.get?_map]
  cases c.functions.entries[i]? <;> rfl

@[simp] theorem scope_withFrame (c : Context) (f : Frame) : (c.withFrame f).scope = c.scope := rfl
@[simp] theorem table_withFrame (c : Context) (f : Frame) : (c.withFrame f).table = c.table := rfl
@[simp] theorem depth_withFrame (c : Context) (f : Frame) : (c.withFrame f).depth = c.depth := rfl
@[simp] theorem limits_withFrame (c : Context) (f : Frame) :
    (c.withFrame f).limits = c.limits := rfl
@[simp] theorem headroom_withFrame (c : Context) (f : Frame) :
    (c.withFrame f).headroom = c.headroom := rfl

theorem withFrame_withFrame (c : Context) (f g : Frame) :
    (c.withFrame f).withFrame g = c.withFrame g := by
  simp only [withFrame, Store.overwrite_overwrite]

theorem variables_withFrame_of_ne (c : Context) (f : Frame) {i : Nat} (hi : i ≠ c.scope) :
    (c.withFrame f).variables.entries[i]? = c.variables.entries[i]? := by
  rw [Context.withFrame, Store.getElem?_overwrite, if_neg hi.symm]

theorem functions_withFrame_of_ne (c : Context) (f : Frame) {i : Nat} (hi : i ≠ c.table) :
    (c.withFrame f).functions.entries[i]? = c.functions.entries[i]? := by
  rw [Context.withFrame, Store.getElem?_overwrite, if_neg hi.symm]

namespace Aligned

variable {c : Context}

theorem functions_grounded (hc : c.Aligned) : c.functions.Grounded :=
  fun i p hp => hc.grounded i p ((hc.parent_eq i).symm.trans hp)

theorem ancestors_eq (hc : c.Aligned) (i : Nat) :
    c.functions.ancestors i = c.variables.ancestors i :=
  hc.grounded.ancestors_congr fun j _ => hc.parent_eq j

theorem exists_scope (hc : c.Aligned) : ∃ e, c.variables.entries[c.scope]? = some e :=
  Store.exists_entry hc.scope_lt

theorem exists_table (hc : c.Aligned) : ∃ t, c.functions.entries[c.table]? = some t :=
  Store.exists_entry (hc.table_eq ▸ hc.size_eq ▸ hc.scope_lt)

/-! ### Lookups -/

theorem find_variable (hc : c.Aligned) (x : Name) :
    c.variables.find c.scope x = .ok (c.chain.lookup x) := by
  rw [hc.grounded.find_eq hc.scope_lt]
  have hframes : c.chain.frames = (c.scope :: c.variables.ancestors c.scope).map c.frameAt := rfl
  rw [Chain.lookup, hframes, List.findSome?_map]
  congr 2
  funext j
  exact (c.get?_values_frameAt j x).symm

theorem placedIn_of_get? (hc : c.Aligned) {i : Nat} {x : Name} {f : Closure}
    (h : c.functions.get? i x = some f) : f.scope = i ∧ f.PlacedIn c := by
  obtain ⟨t, ht, hx⟩ := Option.bind_eq_some_iff.mp h
  obtain ⟨htable, hscope⟩ := hc.placed i t ht _ (Bindings.mem_of_get? hx)
  have hi : i < c.variables.size := hc.size_eq ▸ Store.lt_size_of_getElem? ht
  exact ⟨hscope, htable.trans hscope.symm, hscope ▸ hi⟩

/-- The frame that defines a function is the one with the index that its closure
    keeps. -/
theorem definer?_framesFrom (hc : c.Aligned) (x : Name) (i : Nat) :
    definer? x (c.framesFrom i) =
      ((i :: c.variables.ancestors i).findSome? fun j => c.functions.get? j x).map
        fun f => (f.routine, c.framesFrom f.scope) := by
  -- what the frame itself binds is decided the same way for roots and children
  have hbound : ∀ i f, c.functions.get? i x = some f →
      definer? x (c.framesFrom i) = some (f.routine, c.framesFrom f.scope) := by
    intro i f hf
    obtain ⟨hscope, -⟩ := hc.placedIn_of_get? hf
    simp [framesFrom, definer?, get?_functions_frameAt, hf, hscope]
  refine hc.grounded.induction (motive := fun i => definer? x (c.framesFrom i) =
    ((i :: c.variables.ancestors i).findSome? fun j => c.functions.get? j x).map
      fun f => (f.routine, c.framesFrom f.scope)) ?_ ?_ i
  · intro i hroot
    cases hf : c.functions.get? i x with
    | some f => simp [hbound i f hf, hf]
    | none =>
      simp [framesFrom, Store.ancestors_of_root hroot, definer?, get?_functions_frameAt, hf]
  · intro i p hp hlt ih
    cases hf : c.functions.get? i x with
    | some f => simp [hbound i f hf, hf]
    | none =>
      rw [framesFrom, Store.ancestors_of_parent hp hlt, List.map_cons, definer?,
        get?_functions_frameAt, hf, List.findSome?_cons, hf]
      exact ih

theorem find_function (hc : c.Aligned) (x : Name) :
    ∃ found, c.functions.find c.table x = .ok found ∧
      definer? x c.chain.frames = found.map (fun f => (f.routine, c.framesFrom f.scope)) ∧
      ∀ f, found = some f → f.PlacedIn c := by
  refine ⟨_, hc.functions_grounded.find_eq (hc.table_eq ▸ hc.size_eq ▸ hc.scope_lt) x, ?_, ?_⟩
  · rw [hc.table_eq, hc.ancestors_eq]
    exact hc.definer?_framesFrom x c.scope
  · intro f hf
    obtain ⟨j, -, hj⟩ := List.exists_of_findSome?_eq_some hf
    exact (hc.placedIn_of_get? hj).2

theorem label_eq (hc : c.Aligned) : c.variables.label c.scope = .ok c.chain.frame.owner := by
  obtain ⟨e, he⟩ := hc.exists_scope
  simp [Store.label_eq he, chain, frameAt, he]

/-! ### Replacing the current frame -/

/-- In its own place, a routine of the current frame is the closure that it was
    read off. -/
theorem map_closure (hc : c.Aligned) {t : Entry Unit Closure}
    (ht : c.functions.entries[c.table]? = some t) :
    (c.chain.frame.functions.map fun r => r.closure c.scope) = t.bindings := by
  rw [chain, frameAt, ← hc.table_eq, ht]
  apply Bindings.map_map_of_forall
  intro entry hentry
  obtain ⟨htable, hscope⟩ := hc.placed c.table t ht entry hentry
  cases hf : entry.2
  simp_all [Routine.closure, Closure.routine]

theorem overwrite_functions (hc : c.Aligned) :
    c.functions.overwrite c.table () (c.chain.frame.functions.map fun r => r.closure c.scope) =
      c.functions := by
  obtain ⟨t, ht⟩ := hc.exists_table
  rw [hc.map_closure ht]
  exact Store.overwrite_self ht

theorem overwrite_variables (hc : c.Aligned) :
    c.variables.overwrite c.scope c.chain.frame.owner c.chain.frame.values = c.«variables» := by
  obtain ⟨e, he⟩ := hc.exists_scope
  simpa [chain, frameAt, he] using Store.overwrite_self he

theorem withFrame_frame (hc : c.Aligned) : c.withFrame c.chain.frame = c := by
  rw [withFrame, hc.overwrite_variables, hc.overwrite_functions]

theorem withFrame (hc : c.Aligned) (f : Frame) : (c.withFrame f).Aligned where
  size_eq := by simpa [Context.withFrame] using hc.size_eq
  table_eq := hc.table_eq
  scope_lt := by simpa [Context.withFrame] using hc.scope_lt
  parent_eq := by simpa [Context.withFrame] using hc.parent_eq
  grounded := by
    intro i p hp
    exact hc.grounded i p (by simpa [Context.withFrame] using hp)
  placed := by
    intro i t ht entry hentry
    simp only [Context.withFrame, Store.getElem?_overwrite] at ht
    split at ht
    · next hi =>
      obtain ⟨t₀, -, rfl⟩ := Option.map_eq_some_iff.mp ht
      obtain ⟨r, -, rfl⟩ := List.mem_map.mp hentry
      exact ⟨hc.table_eq ▸ hi, hc.table_eq ▸ hi⟩
    · exact hc.placed i t ht entry hentry

theorem frameAt_withFrame_of_ne (hc : c.Aligned) {i : Nat} (hi : i ≠ c.scope) (f : Frame) :
    (c.withFrame f).frameAt i = c.frameAt i := by
  have htable : c.table ≠ i := fun h => hi (h.symm.trans hc.table_eq)
  simp only [frameAt, Context.withFrame, Store.getElem?_overwrite, if_neg hi.symm, if_neg htable]

theorem frameAt_withFrame_self (hc : c.Aligned) (f : Frame) :
    (c.withFrame f).frameAt c.scope = f := by
  obtain ⟨e, he⟩ := hc.exists_scope
  obtain ⟨t, ht⟩ := hc.exists_table
  rw [hc.table_eq] at ht
  have hfunctions :
      (f.functions.map fun r => r.closure c.scope).map Closure.routine = f.functions :=
    Bindings.map_map_of_forall fun _ _ => rfl
  simp [frameAt, Context.withFrame, Store.getElem?_overwrite, hc.table_eq, he, ht, hfunctions]

@[simp] theorem ancestors_withFrame (hc : c.Aligned) (f : Frame) (i : Nat) :
    (c.withFrame f).variables.ancestors i = c.variables.ancestors i :=
  hc.grounded.ancestors_congr fun j _ => Store.parent?_overwrite c.variables c.scope j _ _

theorem chain_withFrame (hc : c.Aligned) (f : Frame) :
    (c.withFrame f).chain = ⟨f, c.chain.outer⟩ := by
  have houter : (c.variables.ancestors c.scope).map (c.withFrame f).frameAt =
      (c.variables.ancestors c.scope).map c.frameAt := by
    apply List.map_congr_left
    intro i hi
    exact hc.frameAt_withFrame_of_ne (Nat.ne_of_lt (hc.grounded.lt_of_mem_ancestors hi)) f
  simp only [chain, scope_withFrame, hc.frameAt_withFrame_self, hc.ancestors_withFrame, houter]

/-! ### What the stores bind -/

theorem get?_variables_withFrame (hc : c.Aligned) (f : Frame) (x : Name) :
    (c.withFrame f).variables.get? c.scope x = f.values.get? x := by
  rw [← get?_values_frameAt, hc.frameAt_withFrame_self]

theorem get?_functions_withFrame (hc : c.Aligned) (f : Frame) (x : Name) :
    (c.withFrame f).functions.get? c.scope x =
      (f.functions.get? x).map fun r => r.closure c.scope := by
  obtain ⟨t, ht⟩ := hc.exists_table
  rw [Context.withFrame, Store.get?, Store.getElem?_overwrite, hc.table_eq, if_pos rfl,
    ← hc.table_eq, ht]
  exact Bindings.get?_map _ _ x

theorem get?_variables (hc : c.Aligned) (x : Name) :
    c.variables.get? c.scope x = c.chain.frame.values.get? x := by
  rw [← hc.get?_variables_withFrame, hc.withFrame_frame]

theorem get?_functions (hc : c.Aligned) (x : Name) :
    c.functions.get? c.scope x =
      (c.chain.frame.functions.get? x).map fun r => r.closure c.scope := by
  rw [← hc.get?_functions_withFrame, hc.withFrame_frame]

/-! ### Names -/

theorem bind_eq (hc : c.Aligned) (x : Name) (v : Value) :
    c.bind x v = .ok (c.withFrame (c.chain.frame.declare x v)) := by
  obtain ⟨e, he⟩ := hc.exists_scope
  have hframe : c.withFrame (c.chain.frame.declare x v) =
      { c with «variables» := c.variables.overwrite c.scope e.label (e.bindings.set x v) } := by
    simp only [Context.withFrame, Frame.declare, hc.overwrite_functions]
    simp [chain, frameAt, he]
  change (do
    let scopes ← c.variables.bind c.scope x v
    return { c with «variables» := scopes }) = _
  rw [Store.bind_eq he, hframe]
  rfl

theorem bindAll_eq (hc : c.Aligned) (xs : List Name) (vs : List Value) :
    c.bindAll xs vs = .ok (c.withFrame (c.chain.frame.declareAll xs vs)) := by
  induction xs generalizing c vs with
  | nil => simp [bindAll, Frame.declareAll, hc.withFrame_frame]
  | cons x xs ih =>
    cases vs with
    | nil => simp [bindAll, Frame.declareAll, hc.withFrame_frame]
    | cons v vs =>
      rw [bindAll, hc.bind_eq]
      have hnext := ih (hc.withFrame (c.chain.frame.declare x v)) vs
      rw [hc.chain_withFrame, withFrame_withFrame] at hnext
      exact hnext

theorem define_eq (hc : c.Aligned) (name : Name) (parameters : List Name) (body : List Stmt) :
    ∃ former, c.define name parameters body =
      .ok (former, c.withFrame (c.chain.frame.define ⟨name, parameters, body⟩)) := by
  obtain ⟨t, ht⟩ := hc.exists_table
  have hclosure : (⟨name, parameters, body⟩ : Routine).closure c.scope =
      ⟨name, parameters, body, c.scope, c.table⟩ := by
    rw [Routine.closure, hc.table_eq]
  have hframe : c.withFrame (c.chain.frame.define ⟨name, parameters, body⟩) =
      { c with functions := c.functions.overwrite c.table ()
                (t.bindings.set name ⟨name, parameters, body, c.scope, c.table⟩) } := by
    simp only [Context.withFrame, Frame.define, hc.overwrite_variables, Bindings.map_set,
      hc.map_closure ht, hclosure]
  refine ⟨c.functions.get? c.table name, ?_⟩
  change (do
    let defined ← c.functions.define c.table name parameters body c.scope
    return (defined.2, { c with functions := defined.1 })) = _
  rw [Tables.define, Store.own_eq (Store.lt_size_of_getElem? ht), Store.bind_eq ht, hframe]
  rfl

end Aligned

/-! ## Opening and closing calls -/

/-- The context with one frame more, which binds nothing and lies in the frame with
    the given index. The current frame stays where it is. -/
def extend (c : Context) (place : Nat) (owner : Option Name) : Context :=
  { c with «variables» := c.variables.extend place owner, functions := c.functions.extend place () }

/-- The context with the frame of this index as the current one. -/
def moveTo (c : Context) (i : Nat) : Context :=
  { c with scope := i, table := i }

/-- The context in which the body of a call starts. -/
def opened (c : Context) (f : Closure) (arguments : List Value) : Context :=
  ({ (c.extend f.scope (some f.name)).moveTo c.variables.size with depth := c.depth + 1 } :
    Context).withFrame (.ofCall f.routine arguments)

theorem frameAt_extend_of_lt {c : Context} {i : Nat} (hv : i < c.variables.size)
    (hf : i < c.functions.size) (place : Nat) (owner : Option Name) :
    (c.extend place owner).frameAt i = c.frameAt i := by
  simp only [frameAt, extend, Store.getElem?_extend_of_lt hv, Store.getElem?_extend_of_lt hf]

namespace Aligned

variable {c : Context}

theorem extend (hc : c.Aligned) {place : Nat} (hplace : place < c.variables.size)
    (owner : Option Name) : (c.extend place owner).Aligned where
  size_eq := by simpa [Context.extend] using hc.size_eq
  table_eq := hc.table_eq
  scope_lt := by
    rw [Context.extend, Store.size_extend]
    exact Nat.lt_succ_of_lt hc.scope_lt
  parent_eq := by
    intro i
    simp only [Context.extend, Store.parent?_extend, hc.size_eq, hc.parent_eq]
  grounded := hc.grounded.extend hplace owner
  placed := by
    intro i t ht entry hentry
    simp only [Context.extend, Store.getElem?_extend] at ht
    split at ht
    · cases ht
      exact absurd hentry List.not_mem_nil
    · exact hc.placed i t ht entry hentry

theorem moveTo (hc : c.Aligned) {i : Nat} (hi : i < c.variables.size) : (c.moveTo i).Aligned :=
  { hc with table_eq := rfl, scope_lt := hi }

theorem withDepth (hc : c.Aligned) (depth : Nat) (limits : Limits) :
    { c with depth, limits : Context }.Aligned :=
  { hc with }

theorem framesFrom_extend (hc : c.Aligned) {place i : Nat} (hi : i < c.variables.size)
    (owner : Option Name) : (c.extend place owner).framesFrom i = c.framesFrom i := by
  have hancestors : (c.extend place owner).variables.ancestors i = c.variables.ancestors i := by
    refine hc.grounded.ancestors_congr fun j hj => ?_
    rw [Context.extend, Store.parent?_extend, if_neg (Nat.ne_of_lt (Nat.lt_of_le_of_lt hj hi))]
  rw [framesFrom, framesFrom, hancestors]
  apply List.map_congr_left
  intro j hj
  have hle : j ≤ i := by
    rcases List.mem_cons.mp hj with rfl | hj
    · exact Nat.le_refl j
    · exact Nat.le_of_lt (hc.grounded.lt_of_mem_ancestors hj)
  have hlt : j < c.variables.size := Nat.lt_of_le_of_lt hle hi
  exact frameAt_extend_of_lt hlt (hc.size_eq ▸ hlt) place owner

/-- A new frame binds nothing, and lies in front of the frames of its place. -/
theorem chain_extend (hc : c.Aligned) {place : Nat} (hplace : place < c.variables.size)
    (owner : Option Name) :
    ((c.extend place owner).moveTo c.variables.size).chain =
      ⟨⟨owner, .empty, .empty⟩, c.framesFrom place⟩ := by
  have hparent : (c.extend place owner).variables.parent? c.variables.size = some place := by
    rw [Context.extend, Store.parent?_extend, if_pos rfl]
  have hframe : (c.extend place owner).frameAt c.variables.size = ⟨owner, .empty, .empty⟩ := by
    simp [frameAt, Context.extend, Store.getElem?_extend, hc.size_eq]
    rfl
  have houter : ((c.extend place owner).variables.ancestors c.variables.size).map
      (c.extend place owner).frameAt = c.framesFrom place := by
    rw [Store.ancestors_of_parent hparent hplace]
    exact hc.framesFrom_extend hplace owner
  change Chain.mk ((c.extend place owner).frameAt c.variables.size)
    (((c.extend place owner).variables.ancestors c.variables.size).map
      (c.extend place owner).frameAt) = _
  rw [hframe, houter]

theorem enter_eq (hc : c.Aligned) {place : Nat} (hplace : place < c.variables.size)
    (owner : Option Name) :
    c.enter place place owner = .ok ((c.extend place owner).moveTo c.variables.size) := by
  change (do
    let pushed ← c.variables.push place owner
    let pushed' ← c.functions.push place ()
    return { c with
      «variables» := pushed.1, functions := pushed'.1, scope := pushed.2, table := pushed'.2 }) = _
  rw [Store.push_eq hplace, Store.push_eq (hc.size_eq ▸ hplace), hc.size_eq]
  rfl

theorem opened (hc : c.Aligned) {f : Closure} (hf : f.PlacedIn c) (arguments : List Value) :
    (c.opened f arguments).Aligned := by
  refine Aligned.withFrame (Aligned.withDepth ?_ _ _) _
  exact (hc.extend hf.2 _).moveTo (by simp [Context.extend])

theorem chain_opened (hc : c.Aligned) {f : Closure} (hf : f.PlacedIn c) (arguments : List Value) :
    (c.opened f arguments).chain =
      ⟨.ofCall f.routine arguments, c.framesFrom f.scope⟩ := by
  have hnew : ((c.extend f.scope (some f.name)).moveTo c.variables.size).Aligned :=
    (hc.extend hf.2 _).moveTo (by simp [Context.extend])
  rw [Context.opened, (hnew.withDepth _ _).chain_withFrame]
  exact congrArg (Chain.mk _ ·.outer) (hc.chain_extend hf.2 _)

theorem openCall_eq (hc : c.Aligned) {f : Closure} (hf : f.PlacedIn c) (arguments : List Value) :
    c.openCall f arguments = .ok (c.mark, c.opened f arguments) := by
  have hnew : ((c.extend f.scope (some f.name)).moveTo c.variables.size).Aligned :=
    (hc.extend hf.2 _).moveTo (by simp [Context.extend])
  have hbound := hnew.bindAll_eq f.parameters arguments
  rw [hc.chain_extend hf.2] at hbound
  rw [openCall, hf.1, hc.enter_eq hf.2]
  change (do
    let c' ← ((c.extend f.scope (some f.name)).moveTo c.variables.size).bindAll f.parameters
      arguments
    return (c.mark, { c' with depth := c'.depth + 1 })) = _
  rw [hbound]
  rfl

/-- Closing a call gives back the context in which it was opened, whatever its body
    did to its own frame. -/
theorem closeCall_opened (hc : c.Aligned) (f : Closure) (arguments : List Value) (frame : Frame) :
    ((c.opened f arguments).withFrame frame).closeCall c.mark = .ok c := by
  have hsize : c.variables.size ≠ 0 := Nat.ne_of_gt (Nat.zero_lt_of_lt hc.scope_lt)
  rw [Context.opened, withFrame_withFrame]
  change (do
    let scopes ← ((c.variables.extend f.scope (some f.name)).overwrite c.variables.size
      frame.owner frame.values).truncate c.variables.size
    let functions ← ((c.functions.extend f.scope ()).overwrite c.variables.size ()
      (frame.functions.map (Routine.closure · c.variables.size))).truncate c.functions.size
    return { c with «variables» := scopes, functions, depth := c.depth + 1 - 1 }) = _
  rw [Store.truncate_extend hsize, ← hc.size_eq, Store.truncate_extend (hc.size_eq ▸ hsize)]
  rfl

end Aligned

/-! ## Mirrored contexts -/

theorem mirrored_new (limits : Limits) : (Context.new limits).Mirrored where
  size_eq := rfl
  table_eq := rfl
  scope_lt := Nat.one_pos
  parent_eq := by
    intro i
    cases i <;> rfl
  grounded := by
    intro i p hp
    cases i <;> cases hp
  placed := by
    intro i t ht entry hentry
    cases i with
    | zero =>
      cases ht
      exact absurd hentry List.not_mem_nil
    | succ i => cases ht
  parent?_eq_none_iff := by
    intro i hi
    have hroot : i = 0 := Nat.lt_one_iff.mp hi
    subst hroot
    exact ⟨fun _ => rfl, fun _ => rfl⟩
  named := by
    intro i t ht entry hentry
    cases i with
    | zero =>
      cases ht
      exact absurd hentry List.not_mem_nil
    | succ i => cases ht

theorem chain_new (limits : Limits) : (Context.new limits).chain = .root := by
  have hancestors : (Context.new limits).variables.ancestors Store.root = [] :=
    Store.ancestors_of_root rfl
  change Chain.mk _ (((Context.new limits).variables.ancestors Store.root).map _) = _
  rw [hancestors]
  rfl

namespace Mirrored

variable {c : Context}

theorem named_frame (hc : c.Mirrored) : c.chain.frame.Named := by
  obtain ⟨t, ht⟩ := hc.exists_table
  intro entry hentry
  rw [chain, frameAt, ← hc.table_eq, ht] at hentry
  obtain ⟨stored, hstored, rfl⟩ := List.mem_map.mp hentry
  exact hc.named c.table t ht stored hstored

/-- A function has the name that it is found under. -/
theorem name_of_find (hc : c.Mirrored) {x : Name} {f : Closure}
    (h : c.functions.find c.table x = .ok (some f)) : f.name = x := by
  have htable : c.table < c.functions.size := hc.table_eq ▸ hc.size_eq ▸ hc.scope_lt
  rw [hc.functions_grounded.find_eq htable, Except.ok.injEq] at h
  obtain ⟨i, -, hi⟩ := List.exists_of_findSome?_eq_some h
  obtain ⟨t, ht, hx⟩ := Option.bind_eq_some_iff.mp hi
  exact hc.named i t ht _ (Bindings.mem_of_get? hx)

theorem withFrame (hc : c.Mirrored) {f : Frame} (hf : f.Named) : (c.withFrame f).Mirrored :=
  { hc.toAligned.withFrame f with
    parent?_eq_none_iff := by
      simpa [Context.withFrame] using hc.parent?_eq_none_iff
    named := by
      intro i t ht entry hentry
      simp only [Context.withFrame, Store.getElem?_overwrite] at ht
      split at ht
      · obtain ⟨t₀, -, rfl⟩ := Option.map_eq_some_iff.mp ht
        obtain ⟨defined, hdefined, rfl⟩ := List.mem_map.mp hentry
        exact hf defined hdefined
      · exact hc.named i t ht entry hentry }

theorem extend (hc : c.Mirrored) {place : Nat} (hplace : place < c.variables.size)
    (owner : Option Name) : (c.extend place owner).Mirrored :=
  { hc.toAligned.extend hplace owner with
    parent?_eq_none_iff := by
      intro i hi
      rw [Context.extend, Store.size_extend] at hi
      rw [Context.extend, Store.parent?_extend]
      split
      · next hnew =>
        have hpos : i ≠ 0 := hnew ▸ Nat.ne_of_gt (Nat.zero_lt_of_lt hplace)
        simp [hpos]
      · next hold =>
        exact hc.parent?_eq_none_iff i (Nat.lt_of_le_of_ne (Nat.le_of_lt_succ hi) hold)
    named := by
      intro i t ht entry hentry
      simp only [Context.extend, Store.getElem?_extend] at ht
      split at ht
      · cases ht
        exact absurd hentry List.not_mem_nil
      · exact hc.named i t ht entry hentry }

theorem moveTo (hc : c.Mirrored) {i : Nat} (hi : i < c.variables.size) : (c.moveTo i).Mirrored :=
  { hc with table_eq := rfl, scope_lt := hi }

theorem withDepth (hc : c.Mirrored) (depth : Nat) (limits : Limits) :
    { c with depth, limits : Context }.Mirrored :=
  { hc with }

theorem opened (hc : c.Mirrored) {f : Closure} (hf : f.PlacedIn c) (arguments : List Value) :
    (c.opened f arguments).Mirrored := by
  refine Mirrored.withFrame (Mirrored.withDepth ?_ _ _) (Frame.named_ofCall _ _)
  exact (hc.extend hf.2 _).moveTo (by simp [Context.extend])

theorem bind (hc : c.Mirrored) (x : Name) (v : Value) :
    ∃ c', c.bind x v = .ok c' ∧ c'.Mirrored :=
  ⟨_, hc.bind_eq x v, hc.withFrame hc.named_frame⟩

/-- A host may lay a frame below the current one, and stay where it is or move there. -/
theorem push (hc : c.Mirrored) (owner : Option Name) :
    ∃ scopes functions i,
      c.variables.push c.scope owner = .ok (scopes, i) ∧
      c.functions.push c.table () = .ok (functions, i) ∧
      { c with «variables» := scopes, functions : Context }.Mirrored ∧
      { c with «variables» := scopes, functions, scope := i, table := i : Context }.Mirrored := by
  have htable : c.table < c.functions.size := hc.table_eq ▸ hc.size_eq ▸ hc.scope_lt
  have hextend := hc.extend hc.scope_lt owner
  refine ⟨_, _, c.variables.size, Store.push_eq hc.scope_lt owner, ?_, hextend, ?_⟩
  · rw [Store.push_eq htable, hc.table_eq, hc.size_eq]
  · exact hextend.moveTo (by simp [Context.extend])

end Mirrored

/-! ## A context inside a call

`g` calls itself once and reads `y`, `loop` never stops calling itself. The call that
is open was given two arguments for one parameter, which hides the `y` of the root. -/

def sampleRoutine : Routine :=
  { name := "g"
    parameters := ["x"]
    body := [
      .conditional [.access (some "x")]
        [.returns (.call (some "g") [.literal (.boolean false)])],
      .returns (.access (some "y"))] }

def sampleRoot : Frame :=
  { owner := none
    values := ⟨[("y", .string "outer")]⟩
    functions := ⟨[
      ("g", sampleRoutine),
      ("loop", { name := "loop", parameters := [], body := [
        .returns (.call (some "loop") [])] })]⟩ }

def sampleClosure : Closure :=
  { name := "f", parameters := ["y", "y"], body := [], scope := Store.root, table := Store.root }

def sample : Context :=
  ((Context.new ⟨4⟩).withFrame sampleRoot).opened sampleClosure [.string "first", .string "last"]

theorem mirrored_sample : sample.Mirrored := by
  have hnamed : sampleRoot.Named := by
    intro entry hentry
    rcases List.mem_cons.mp hentry with rfl | hentry
    · rfl
    · rcases List.mem_singleton.mp hentry with rfl
      rfl
  exact ((mirrored_new ⟨4⟩).withFrame hnamed).opened ⟨rfl, Nat.one_pos⟩ _

theorem chain_sample :
    sample.chain = ⟨⟨some "f", ⟨[("y", .string "last")]⟩, .empty⟩, [sampleRoot]⟩ := by
  have hnew := (mirrored_new ⟨4⟩).toAligned
  have hroot : ((Context.new ⟨4⟩).withFrame sampleRoot).framesFrom Store.root = [sampleRoot] := by
    have hancestors :
        ((Context.new ⟨4⟩).withFrame sampleRoot).variables.ancestors Store.root = [] :=
      Store.ancestors_of_root rfl
    rw [framesFrom, hancestors, List.map_singleton]
    exact congrArg (· :: []) (hnew.frameAt_withFrame_self sampleRoot)
  rw [sample, (hnew.withFrame sampleRoot).chain_opened ⟨rfl, Nat.one_pos⟩]
  exact congrArg (Chain.mk _) hroot

end Context

end TreeWalk
