-- SUMMARY: What running a node may change: bindings of the current frame, and of those only the ones that its declarations and definitions name.
import TreeWalk.Proofs.Simulation

/-! # Footprints

Whatever a statement calls, and whatever the called bodies bind in frames of their own, a
statement changes one frame only, the current one. In that frame it binds what it declares and
defines itself, and takes nothing away. `Node.Contains` says what a node does itself: a
conditional does what its body does, because it has no frame of its own, and a definition keeps
its body for later.

A statement may fail after some of its declarations have taken effect. What it has done by then
is bounded in the same way, and a single declaration or definition does all or nothing.
-/

namespace TreeWalk

open TreeWalk.Action

/-! ## Occurrences -/

/-- A statement occurs in another one, outside any function body. -/
inductive Stmt.OccursIn (t : Stmt) : Stmt → Prop
  | self : OccursIn t t
  | conditional {conditions : List Expr} {body : List Stmt} {s : Stmt} (hs : s ∈ body)
      (h : OccursIn t s) : OccursIn t (.conditional conditions body)

/-- Nothing but itself occurs in a declaration. -/
theorem Stmt.OccursIn.eq_of_declaration {t : Stmt} {name : Option Name}
    {value : Option Initializer} (h : t.OccursIn (.declaration name value)) :
    t = .declaration name value := by
  cases h
  rfl

/-- A statement occurs in an item, outside any function body. -/
def Item.Contains (t : Stmt) : Item → Prop
  | .functionDefinition name parameters body =>
      t.OccursIn (.functionDefinition name parameters body)
  | .conditional conditions body => t.OccursIn (.conditional conditions body)
  | .returns e => t.OccursIn (.returns e)
  | .invalid _ => False

namespace Node

/-- A statement occurs in a node, outside any function body. -/
def Contains (t : Stmt) : Node → Prop
  | expression _ | call _ _ => False
  | statement s => t.OccursIn s
  | block body => ∃ s ∈ body, t.OccursIn s
  | conditional conditions body => t.OccursIn (.conditional conditions body)
  | declaration name value => t.OccursIn (.declaration name value)
  | definition name parameters body => t.OccursIn (.functionDefinition name parameters body)
  | program p => ∃ item ∈ p.items, item.Contains t

/-- The node declares a variable of this name. -/
def Declares (n : Node) (x : Name) : Prop :=
  ∃ value, n.Contains (.declaration (some x) value)

/-- The node defines a function of this name. -/
def Defines (n : Node) (name : Name) : Prop :=
  ∃ parameters body, n.Contains (.functionDefinition (some name) parameters body)

end Node

/-! ## Frames -/

/-- What may have become of a frame when the statements of a set have been run on it. -/
structure Frame.Becomes (occurs : Stmt → Prop) (f f' : Frame) : Prop where
  owner_eq : f'.owner = f.owner
  values_kept : ∀ x, (f.values.get? x).isSome → (f'.values.get? x).isSome
  functions_kept : ∀ name, (f.functions.get? name).isSome → (f'.functions.get? name).isSome
  values_eq : ∀ x, (∀ value, ¬ occurs (.declaration (some x) value)) →
    f'.values.get? x = f.values.get? x
  functions_eq : ∀ name,
    (∀ parameters body, ¬ occurs (.functionDefinition (some name) parameters body)) →
      f'.functions.get? name = f.functions.get? name

namespace Frame.Becomes

variable {occurs : Stmt → Prop} {f f' f'' : Frame}

theorem refl (f : Frame) : f.Becomes occurs f where
  owner_eq := rfl
  values_kept _ h := h
  functions_kept _ h := h
  values_eq _ _ := rfl
  functions_eq _ _ := rfl

theorem trans (h : f.Becomes occurs f') (h' : f'.Becomes occurs f'') : f.Becomes occurs f'' where
  owner_eq := h'.owner_eq.trans h.owner_eq
  values_kept x hx := h'.values_kept x (h.values_kept x hx)
  functions_kept name hname := h'.functions_kept name (h.functions_kept name hname)
  values_eq x hx := (h'.values_eq x hx).trans (h.values_eq x hx)
  functions_eq name hname := (h'.functions_eq name hname).trans (h.functions_eq name hname)

theorem declare {x : Name} {value : Option Initializer} (h : occurs (.declaration (some x) value))
    (f : Frame) (v : Value) : f.Becomes occurs (f.declare x v) :=
  { refl f with
    values_kept := by
      intro y hy
      by_cases hxy : y = x
      · simp [Frame.declare, hxy]
      · simpa [Frame.declare, Bindings.get?_set, hxy] using hy
    values_eq := by
      intro y hy
      have hne : y ≠ x := fun hxy => hy value (hxy ▸ h)
      exact Bindings.get?_set_of_ne f.values hne v }

theorem define {r : Routine} {parameters : List Name} {body : List Stmt}
    (h : occurs (.functionDefinition (some r.name) parameters body)) (f : Frame) :
    f.Becomes occurs (f.define r) :=
  { refl f with
    functions_kept := by
      intro name hname
      by_cases heq : name = r.name
      · simp [Frame.define, heq]
      · simpa [Frame.define, Bindings.get?_set, heq] using hname
    functions_eq := by
      intro name hname
      have hne : name ≠ r.name := fun heq => hname parameters body (heq ▸ h)
      exact Bindings.get?_set_of_ne f.functions hne r }

end Frame.Becomes

/-! ## Lexical evaluation -/

namespace Lexical

variable {occurs : Stmt → Prop}

theorem becomes_define {name : Option Name} {parameters : List Name} {body : List Stmt}
    (h : occurs (.functionDefinition name parameters body)) (f : Frame) :
    f.Becomes occurs (define f name parameters body).2 := by
  cases name with
  | none => exact .refl f
  | some name =>
    rw [define]
    split
    · exact .refl f
    · exact .define (r := ⟨name, parameters, body⟩) h f

theorem becomes_declare {name : Option Name} {value : Option Initializer}
    (h : occurs (.declaration name value)) (caller : Caller) (chain : Chain) :
    chain.frame.Becomes occurs (declare caller chain name value).2 := by
  unfold declare
  split
  · exact .refl _
  · exact .refl _
  · split
    · exact .declare h _ _
    · exact .refl _

theorem becomes_choose (caller : Caller) (chain : Chain) (conditions : List Expr)
    (body : List Stmt) {runBody : Frame → Ending}
    (hbody : chain.frame.Becomes occurs (runBody chain.frame).2) :
    chain.frame.Becomes occurs (choose caller chain conditions body runBody).2 := by
  unfold choose
  split
  · split
    · exact hbody
    · exact .refl _
  · exact .refl _

theorem becomes_andThen {f : Frame} {ending : Ending} (h : f.Becomes occurs ending.2)
    {following : Frame → Ending} (hfollowing : ∀ g : Frame, g.Becomes occurs (following g).2) :
    f.Becomes occurs (ending.andThen following).2 := by
  unfold Ending.andThen
  split
  · exact h.trans (hfollowing _)
  · exact h

mutual

theorem becomes_execute (caller : Caller) (outer : List Frame) (s : Stmt)
    (h : ∀ t : Stmt, t.OccursIn s → occurs t) (f : Frame) :
    f.Becomes occurs (execute caller outer s f).2 := by
  cases s with
  | functionDefinition name parameters body => exact becomes_define (h _ .self) f
  | conditional conditions body =>
    refine becomes_choose caller ⟨f, outer⟩ conditions body ?_
    refine becomes_executeAll caller outer body (fun t s hs ht => ?_) f
    exact h t (.conditional hs ht)
  | declaration name value => exact becomes_declare (h _ .self) caller ⟨f, outer⟩
  | returns | expression | malformed | invalid => exact .refl f

theorem becomes_executeAll (caller : Caller) (outer : List Frame) (body : List Stmt)
    (h : ∀ t, ∀ s ∈ body, t.OccursIn s → occurs t) (f : Frame) :
    f.Becomes occurs (executeAll caller outer body f).2 := by
  cases body with
  | nil => exact .refl f
  | cons s rest =>
    refine becomes_andThen (becomes_execute caller outer s ?_ f) ?_
    · exact fun t => h t s List.mem_cons_self
    · refine becomes_executeAll caller outer rest ?_
      exact fun t s hs => h t s (List.mem_cons_of_mem _ hs)

end

theorem becomes_executeItem (caller : Caller) (outer : List Frame) (item : Item)
    (h : ∀ t, item.Contains t → occurs t) (f : Frame) :
    f.Becomes occurs (executeItem caller outer item f).2 := by
  -- an item of one of the three kinds does what the statement of its kind does
  cases item with
  | functionDefinition name parameters body =>
    exact becomes_execute caller outer (.functionDefinition name parameters body) h f
  | conditional conditions body =>
    exact becomes_execute caller outer (.conditional conditions body) h f
  | returns | invalid => exact .refl f

theorem becomes_executeItems (caller : Caller) (outer : List Frame) (items : List Item)
    (h : ∀ t, ∀ item ∈ items, item.Contains t → occurs t) (f : Frame) :
    f.Becomes occurs (executeItems caller outer items f).2 := by
  induction items generalizing f with
  | nil => exact .refl f
  | cons item rest ih =>
    refine becomes_andThen (becomes_executeItem caller outer item ?_ f) ?_
    · exact fun t => h t item List.mem_cons_self
    · exact ih fun t item hitem => h t item (List.mem_cons_of_mem _ hitem)

/-- A node does to the current frame what the statements do that occur in it. -/
theorem becomes_run (caller : Caller) (chain : Chain) (n : Node) :
    chain.frame.Becomes (Node.Contains · n) (run caller chain n).2 := by
  cases n with
  | expression | call => exact .refl _
  | statement s => exact becomes_execute caller chain.outer s (fun _ h => h) chain.frame
  | block body =>
    exact becomes_executeAll caller chain.outer body (fun _ s hs h => ⟨s, hs, h⟩) chain.frame
  | conditional conditions body =>
    exact becomes_execute caller chain.outer (.conditional conditions body) (fun _ h => h)
      chain.frame
  | declaration name value => exact becomes_declare .self caller chain
  | definition name parameters body => exact becomes_define .self chain.frame
  | program p =>
    exact becomes_executeItems caller chain.outer p.items
      (fun _ item hitem h => ⟨item, hitem, h⟩) chain.frame

/-! ### Single declarations and definitions -/

theorem declare_of_error {caller : Caller} {chain : Chain} {name : Option Name}
    {value : Option Initializer} {cause : RunError}
    (h : (declare caller chain name value).1 = .error cause) :
    (declare caller chain name value).2 = chain.frame := by
  unfold declare at h ⊢
  split at h
  · rfl
  · rfl
  · split at h
    · cases h
    · rfl

theorem declare_of_ok {caller : Caller} {chain : Chain} {name : Option Name}
    {value : Option Initializer} {o : Option Value}
    (h : (declare caller chain name value).1 = .ok o) :
    ∃ x i v, name = some x ∧ value = some i ∧ initial caller chain i = .ok v ∧
      (declare caller chain name value).2 = chain.frame.declare x v := by
  unfold declare at h ⊢
  split at h
  · cases h
  · cases h
  · next x i =>
    split at h
    · next v hv => exact ⟨x, i, v, rfl, rfl, hv, rfl⟩
    · cases h

theorem define_of_error {f : Frame} {name : Option Name} {parameters : List Name}
    {body : List Stmt} {cause : RunError} (h : (define f name parameters body).1 = .error cause) :
    (define f name parameters body).2 = f := by
  unfold define at h ⊢
  split at h
  · rfl
  · split at h
    · next hbody => rw [if_pos hbody]
    · cases h

theorem define_of_ok {f : Frame} {name : Option Name} {parameters : List Name}
    {body : List Stmt} {o : Option Value} (h : (define f name parameters body).1 = .ok o) :
    ∃ g, name = some g ∧ (define f name parameters body).2 = f.define ⟨g, parameters, body⟩ := by
  unfold define at h ⊢
  split at h
  · cases h
  · next g =>
    split at h
    · cases h
    · next hbody => exact ⟨g, rfl, by rw [if_neg hbody]⟩

end Lexical

/-! ## Contexts -/

namespace Context

/-- The second context differs from the first one in nothing but what the current frame
    binds. -/
structure SameOutside (c c' : Context) : Prop where
  scope_eq : c'.scope = c.scope
  table_eq : c'.table = c.table
  depth_eq : c'.depth = c.depth
  limits_eq : c'.limits = c.limits
  scopes_eq : c'.variables.size = c.variables.size
  tables_eq : c'.functions.size = c.functions.size
  scope_parents : ∀ i, c'.variables.parent? i = c.variables.parent? i
  table_parents : ∀ i, c'.functions.parent? i = c.functions.parent? i
  owners : ∀ i, c'.variables.label i = c.variables.label i
  other_scopes : ∀ i : Nat, i ≠ c.scope → c'.variables.entries[i]? = c.variables.entries[i]?
  other_tables : ∀ i : Nat, i ≠ c.table → c'.functions.entries[i]? = c.functions.entries[i]?

variable {c : Context}

theorem Aligned.sameOutside_withFrame (hc : c.Aligned) {f : Frame}
    (hf : f.owner = c.chain.frame.owner) : c.SameOutside (c.withFrame f) where
  scope_eq := rfl
  table_eq := rfl
  depth_eq := rfl
  limits_eq := rfl
  scopes_eq := Store.size_overwrite _ _ _ _
  tables_eq := Store.size_overwrite _ _ _ _
  scope_parents i := Store.parent?_overwrite _ _ _ _ _
  table_parents i := Store.parent?_overwrite _ _ _ _ _
  owners i := by
    by_cases hi : i = c.scope
    · subst hi
      have hlabel := (hc.withFrame f).label_eq
      rw [hc.chain_withFrame] at hlabel
      rw [hc.label_eq, ← hf]
      exact hlabel
    · rw [Store.label, Store.label, Store.entry, Store.entry, c.variables_withFrame_of_ne f hi]
  other_scopes i hi := c.variables_withFrame_of_ne f hi
  other_tables i hi := c.functions_withFrame_of_ne f hi

theorem Aligned.get?_variables_declare (hc : c.Aligned) (x : Name) (v : Value) (i : Nat)
    (y : Name) :
    (c.withFrame (c.chain.frame.declare x v)).variables.get? i y =
      if i = c.scope ∧ y = x then some v else c.variables.get? i y := by
  by_cases hi : i = c.scope
  · subst hi
    rw [hc.get?_variables_withFrame, Frame.declare, Bindings.get?_set, hc.get?_variables]
    simp
  · rw [if_neg fun h => hi h.1, Store.get?, c.variables_withFrame_of_ne _ hi]
    rfl

theorem Aligned.get?_functions_define (hc : c.Aligned) (r : Routine) (i : Nat) (name : Name) :
    (c.withFrame (c.chain.frame.define r)).functions.get? i name =
      if i = c.table ∧ name = r.name then some (r.closure c.scope)
      else c.functions.get? i name := by
  by_cases hi : i = c.table
  · subst hi
    rw [hc.table_eq, hc.get?_functions_withFrame, Frame.define, Bindings.get?_set,
      hc.get?_functions]
    by_cases hname : name = r.name <;> simp [hname]
  · rw [if_neg fun h => hi h.1, Store.get?, c.functions_withFrame_of_ne _ hi]
    rfl

/-- A declaration leaves the tables alone. -/
theorem Aligned.functions_declare (hc : c.Aligned) (x : Name) (v : Value) :
    (c.withFrame (c.chain.frame.declare x v)).functions = c.functions :=
  hc.overwrite_functions

/-- A definition leaves the scopes alone. -/
theorem Aligned.variables_define (hc : c.Aligned) (r : Routine) :
    (c.withFrame (c.chain.frame.define r)).variables = c.variables :=
  hc.overwrite_variables

end Context

/-! ## Runs -/

theorem initial_yields {c : Context} (hc : c.Aligned) (i : Initializer) :
    i.evaluate.Yields c (Lexical.initial c.caller c.chain i) c :=
  Yields.withHeadroom (initializer_yields (invoker_follows_caller c) hc rfl i)

/-- Running a node changes nothing but bindings of the current frame, however it ends. There no
    name disappears, and what a name is bound to changes only if the node declares that variable
    or defines that function outside any function body. A single declaration or definition that
    fails changes nothing; one that succeeds binds the one name that it is about. -/
theorem statements_change_current_frame_only (c : Context) (hc : c.Mirrored) (log : Array Event) :
    (∀ n : Node, ∃ result s, n.run ⟨c, log⟩ = .ok (result, s) ∧
      c.SameOutside s.context ∧
      (∀ x, (c.variables.get? c.scope x).isSome → (s.context.variables.get? c.scope x).isSome) ∧
      (∀ name, (c.functions.get? c.table name).isSome →
        (s.context.functions.get? c.table name).isSome) ∧
      (∀ x, s.context.variables.get? c.scope x ≠ c.variables.get? c.scope x → n.Declares x) ∧
      (∀ name, s.context.functions.get? c.table name ≠ c.functions.get? c.table name →
        n.Defines name)) ∧
    (∀ name value, ∃ result s, (Node.declaration name value).run ⟨c, log⟩ = .ok (result, s) ∧
      (∀ cause, result = .error cause → s.context = c) ∧
      (∀ o, result = .ok o → ∃ x i v log', name = some x ∧ value = some i ∧
        i.evaluate ⟨c, log⟩ = .ok (.ok v, ⟨c, log'⟩) ∧
        s.context.functions = c.functions ∧
        ∀ j y, s.context.variables.get? j y =
          if j = c.scope ∧ y = x then some v else c.variables.get? j y)) ∧
    (∀ name parameters body, ∃ result s,
      (Node.definition name parameters body).run ⟨c, log⟩ = .ok (result, s) ∧
      (∀ cause, result = .error cause → s.context = c) ∧
      (∀ o, result = .ok o → ∃ g, name = some g ∧
        s.context.variables = c.variables ∧
        ∀ j h, s.context.functions.get? j h =
          if j = c.table ∧ h = g then some ⟨g, parameters, body, c.scope, c.table⟩
          else c.functions.get? j h)) := by
  have haligned := hc.toAligned
  refine ⟨fun n => ?_, fun name value => ?_, fun name parameters body => ?_⟩
  · obtain ⟨log', hrun⟩ := n.run_endsIn haligned log
    have hframe : c.chain.frame.Becomes (Node.Contains · n) (c.ending n).2 :=
      Lexical.becomes_run c.caller c.chain n
    refine ⟨_, _, hrun, haligned.sameOutside_withFrame hframe.owner_eq, ?_, ?_, ?_, ?_⟩
    · intro x hx
      rw [haligned.get?_variables] at hx
      rw [haligned.get?_variables_withFrame]
      exact hframe.values_kept x hx
    · intro name hname
      rw [haligned.table_eq, haligned.get?_functions, Option.isSome_map] at hname
      rw [haligned.table_eq, haligned.get?_functions_withFrame, Option.isSome_map]
      exact hframe.functions_kept name hname
    · intro x hx
      rw [haligned.get?_variables, haligned.get?_variables_withFrame] at hx
      refine Classical.byContradiction fun hnot => ?_
      exact hx (hframe.values_eq x fun value hvalue => hnot ⟨value, hvalue⟩)
    · intro name hname
      rw [haligned.table_eq, haligned.get?_functions, haligned.get?_functions_withFrame] at hname
      refine Classical.byContradiction fun hnot => ?_
      refine hname (congrArg _ (hframe.functions_eq name fun parameters body hdefined => ?_))
      exact hnot ⟨parameters, body, hdefined⟩
  · obtain ⟨log', hrun⟩ := (Node.declaration name value).run_endsIn haligned log
    refine ⟨_, _, hrun, ?_, ?_⟩
    · intro cause hcause
      have hframe := Lexical.declare_of_error hcause
      rw [Context.ending, Lexical.run, hframe]
      exact haligned.withFrame_frame
    · intro o ho
      obtain ⟨x, i, v, hname, hvalue, hv, hframe⟩ := Lexical.declare_of_ok ho
      obtain ⟨log'', hi⟩ := initial_yields haligned i log
      rw [hv] at hi
      rw [Context.ending, Lexical.run, hframe]
      exact ⟨x, i, v, log'', hname, hvalue, hi, haligned.functions_declare x v,
        haligned.get?_variables_declare x v⟩
  · obtain ⟨log', hrun⟩ := (Node.definition name parameters body).run_endsIn haligned log
    refine ⟨_, _, hrun, ?_, ?_⟩
    · intro cause hcause
      have hframe := Lexical.define_of_error hcause
      rw [Context.ending, Lexical.run, hframe]
      exact haligned.withFrame_frame
    · intro o ho
      obtain ⟨g, hname, hframe⟩ := Lexical.define_of_ok ho
      have hclosure : (⟨g, parameters, body⟩ : Routine).closure c.scope =
          ⟨g, parameters, body, c.scope, c.table⟩ := by
        rw [Routine.closure, haligned.table_eq]
      rw [Context.ending, Lexical.run, hframe]
      refine ⟨g, hname, haligned.variables_define _, ?_⟩
      rw [← hclosure]
      exact haligned.get?_functions_define _

/-- The block defines `h`, which has another function run and bind its parameter, and declares
    `z`. It names no `y`, which is left as it was. -/
theorem statements_change_current_frame_only_sampleBlock :
    Context.sample.Mirrored ∧
      ∃ result s, sampleBlock.run ⟨.sample, #[]⟩ = .ok (result, s) ∧
        Context.sample.SameOutside s.context ∧
        s.context.variables.get? Context.sample.scope "y" = some (.string "last") := by
  obtain ⟨result, s, hrun, hsame, -, -, hchanged, -⟩ :=
    (statements_change_current_frame_only .sample Context.mirrored_sample #[]).1 sampleBlock
  refine ⟨Context.mirrored_sample, result, s, hrun, hsame, ?_⟩
  have hbefore : Context.sample.variables.get? Context.sample.scope "y" =
      some (.string "last") := by
    rw [Context.mirrored_sample.toAligned.get?_variables, Context.chain_sample]
    rfl
  have hnot : ¬ sampleBlock.Declares "y" := by
    rintro ⟨value, t, ht, hoccurs⟩
    simp only [List.mem_cons, List.not_mem_nil, or_false] at ht
    rcases ht with rfl | rfl | rfl
    · cases hoccurs
    · have hsame := hoccurs.eq_of_declaration
      rw [Stmt.declaration.injEq, Option.some.injEq] at hsame
      exact absurd hsame.1 (by decide)
    · cases hoccurs
  rw [← hbefore]
  exact Classical.byContradiction fun hne => hnot (hchanged "y" hne)

end TreeWalk
