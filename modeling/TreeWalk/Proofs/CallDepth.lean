-- SUMMARY: Every run ends, and inside it depth and stores count exactly the function bodies that are running.
import Mathlib.Algebra.Group.Nat.Defs
import TreeWalk.Proofs.Sessions

/-! # Call depth

The body of a call is no part of the call, so what ends a run is not the syntax alone.
Each body that is opened takes one call from the headroom of the context, and everything
else that a node enters is smaller than the node: no chain of entered points goes on for
ever. The number that `invoker` recurses on has no part in this. At every call it is the
headroom of the context, so that calls go by the depth of the context and by nothing else,
under the name that is called (`call_eq`).

Along such a chain depth and stores grow by one with every body, and by nothing else, and
every point that ends leaves them as it found them.
-/

namespace TreeWalk

open TreeWalk.Action

/-! ## Calls -/

@[simp] theorem Context.limits_opened (c : Context) (f : Closure) (values : List Value) :
    (c.opened f values).limits = c.limits :=
  rfl

@[simp] theorem Context.depth_opened (c : Context) (f : Closure) (values : List Value) :
    (c.opened f values).depth = c.depth + 1 :=
  rfl

@[simp] theorem Context.scopes_opened (c : Context) (f : Closure) (values : List Value) :
    (c.opened f values).variables.size = c.variables.size + 1 := by
  simp [opened, withFrame, extend, moveTo]

@[simp] theorem Context.tables_opened (c : Context) (f : Closure) (values : List Value) :
    (c.opened f values).functions.size = c.functions.size + 1 := by
  simp [opened, withFrame, extend, moveTo]

theorem Context.headroom_opened (c : Context) (f : Closure) (values : List Value) :
    (c.opened f values).headroom = c.headroom - 1 := by
  simp only [headroom, limits_opened, depth_opened]
  omega

/-- The body of a call starts from the headroom of the context that the call opens. -/
theorem inFrame_eq {c : Context} (hc : c.Aligned) {f : Closure} (hf : f.PlacedIn c)
    (values : List Value) (log : Array Event) :
    inFrame f values (executeAllWith (invoker (c.headroom - 1)) f.body) ⟨c, log⟩ =
      inFrame f values (executeAll f.body) ⟨c, log⟩ := by
  have hopen : (update fun c => c.openCall f values) ⟨c, log⟩ =
      .ok (.ok c.mark, ⟨c.opened f values, log⟩) := by
    simp [update, hc.openCall_eq hf]
  rw [← c.headroom_opened f values, inFrame, inFrame, bind_apply, bind_apply, hopen]
  rfl

/-- A call that looks at the depth of the context, and runs the body as a block of the
    context that it opens. What it reports and records has the name that is called. -/
def callByDepth : Option Name → List Expr → Action (Option Value)
  | none, _ => fail .namelessCall
  | some name, arguments => do
      let f ← callee (some name) arguments.length
      let c ← context
      if c.limits.maxCallDepth ≤ c.depth then fail (.tooDeep name c.limits.maxCallDepth)
      else do
        let values ← evaluateAll arguments
        let result ← inFrame f values (executeAll f.body)
        record (.returned name result)
        pure result

/-- Nothing but the depth of the context decides whether a call is opened, and the name that
    the callee has is the one that is called. -/
theorem call_eq {s : Session} (hs : s.context.Mirrored) (name : Option Name)
    (arguments : List Expr) : call name arguments s = callByDepth name arguments s := by
  cases name with
  | none => rfl
  | some name =>
    obtain ⟨c, log⟩ := s
    have hcall : call (some name) arguments ⟨c, log⟩ = (do
        let f ← callee (some name) arguments.length
        invoker c.headroom f (evaluateAllWith (invoker c.headroom) arguments)) ⟨c, log⟩ := rfl
    rw [hcall, callByDepth]
    rcases callee_run hs.toAligned (some name) arguments.length with
      ⟨f, hf, hcallee⟩ | ⟨cause, hcallee, -⟩
    · obtain rfl : f.name = name := name_of_callee hs hcallee
      have hvalues : evaluateAllWith (invoker c.headroom) arguments ⟨c, log⟩ =
          evaluateAll arguments ⟨c, log⟩ := rfl
      have hframe := inFrame_eq hs.toAligned hf
      rw [bind_of_ok hcallee, bind_of_ok hcallee]
      simp only [bind_apply context, context]
      cases hroom : c.headroom with
      | zero =>
        rw [if_pos (Nat.sub_eq_zero_iff_le.mp hroom)]
        rfl
      | succ headroom =>
        have hdepth : ¬ c.limits.maxCallDepth ≤ c.depth := fun h => by
          simp [Context.headroom, Nat.sub_eq_zero_of_le h] at hroom
        rw [hroom] at hvalues hframe
        rw [if_neg hdepth, invoker, bind_apply, bind_apply, hvalues]
        obtain ⟨log', hargs⟩ := evaluateAll_yields hs.toAligned arguments log
        rw [hargs]
        cases Lexical.evaluateAll c.caller c.chain arguments with
        | error cause => rfl
        | ok values =>
          simp only [bind_apply (inFrame _ _ _)]
          rw [← hframe values]
          rfl
    · rw [bind_of_error hcallee, bind_of_error hcallee]

/-- A call that finds its function reports its own name if it may not be opened. -/
theorem call_of_no_headroom {s s' : Session} (hs : s.context.Mirrored) {name : Name}
    {arguments : List Expr} {f : Closure}
    (hcallee : callee (some name) arguments.length s = .ok (.ok f, s'))
    (hroom : s'.context.headroom = 0) :
    call (some name) arguments s =
      .ok (.error (.tooDeep name s'.context.limits.maxCallDepth), s') := by
  have hdepth : s'.context.limits.maxCallDepth ≤ s'.context.depth :=
    Nat.sub_eq_zero_iff_le.mp hroom
  rw [call_eq hs, callByDepth, bind_of_ok hcallee]
  simp only [bind_apply context, context, if_pos hdepth]
  rfl

/-- A call that finds its function and may be opened goes on with its arguments. -/
theorem call_of_callee {s s' : Session} (hs : s.context.Mirrored) {name : Name}
    {arguments : List Expr} {f : Closure}
    (hcallee : callee (some name) arguments.length s = .ok (.ok f, s'))
    (hroom : s'.context.headroom ≠ 0) :
    call (some name) arguments s = (do
      let values ← evaluateAll arguments
      let result ← inFrame f values (executeAll f.body)
      record (.returned name result)
      pure result) s' := by
  have hdepth : ¬ s'.context.limits.maxCallDepth ≤ s'.context.depth :=
    fun h => hroom (Nat.sub_eq_zero_of_le h)
  rw [call_eq hs, callByDepth, bind_of_ok hcallee]
  simp only [bind_apply context, context, if_neg hdepth]

/-! ## Counting bodies -/

namespace Context

/-- The second context is that of a point inside the first one's, with so many bodies
    running in between. -/
structure Holds (c : Context) (k : Nat) (c' : Context) : Prop where
  limits_eq : c'.limits = c.limits
  depth_eq : c'.depth = c.depth + k
  scopes_eq : c'.variables.size = c.variables.size + k
  tables_eq : c'.functions.size = c.functions.size + k
  le_headroom : k ≤ c.headroom

namespace Holds

variable {c c' c'' : Context} {k j : Nat}

theorem refl (c : Context) : c.Holds 0 c where
  limits_eq := rfl
  depth_eq := rfl
  scopes_eq := rfl
  tables_eq := rfl
  le_headroom := Nat.zero_le _

theorem withFrame (c : Context) (f : Frame) : c.Holds 0 (c.withFrame f) where
  limits_eq := rfl
  depth_eq := rfl
  scopes_eq := Store.size_overwrite _ _ _ _
  tables_eq := Store.size_overwrite _ _ _ _
  le_headroom := Nat.zero_le _

theorem opened (hroom : c.headroom ≠ 0) (f : Closure) (values : List Value) :
    c.Holds 1 (c.opened f values) where
  limits_eq := rfl
  depth_eq := rfl
  scopes_eq := c.scopes_opened f values
  tables_eq := c.tables_opened f values
  le_headroom := Nat.one_le_iff_ne_zero.mpr hroom

theorem headroom_eq (h : c.Holds k c') : c'.headroom = c.headroom - k := by
  simp only [headroom, h.limits_eq, h.depth_eq]
  omega

theorem trans (h : c.Holds k c') (h' : c'.Holds j c'') : c.Holds (k + j) c'' where
  limits_eq := h'.limits_eq.trans h.limits_eq
  depth_eq := by rw [h'.depth_eq, h.depth_eq, Nat.add_assoc]
  scopes_eq := by rw [h'.scopes_eq, h.scopes_eq, Nat.add_assoc]
  tables_eq := by rw [h'.tables_eq, h.tables_eq, Nat.add_assoc]
  le_headroom := by
    have hk := h.le_headroom
    have hj := h'.le_headroom
    rw [h.headroom_eq] at hj
    omega

/-- The depth is never larger than it was at the start or than the limit allows. -/
theorem depth_le (h : c.Holds k c') {largest : Nat} (hdepth : c.depth ≤ largest)
    (hlimit : c.limits.maxCallDepth ≤ largest) : c'.depth ≤ largest := by
  have hk : k ≤ c.limits.maxCallDepth - c.depth := h.le_headroom
  rw [h.depth_eq]
  omega

end Holds

end Context

namespace Node

theorem Enters.holds {n n' : Node} {s s' : Session} {k : Nat} (h : Enters n s k n' s')
    (hs : s.context.Mirrored) : s.context.Holds k s'.context := by
  rcases h.context_cases hs with ⟨rfl, f, -, hcontext⟩ | ⟨rfl, hroom, f, values, -, hcontext⟩
  · rw [hcontext]
    exact .withFrame _ f
  · rw [hcontext]
    exact .opened hroom f values

theorem Reaches.holds {n n' : Node} {s s' : Session} {k : Nat} (h : n.Reaches s k n' s')
    (hs : s.context.Mirrored) : s.context.Holds k s'.context := by
  induction h with
  | refl => exact .refl _
  | step hreach henter ih => exact ih.trans (henter.holds (hreach.mirrored hs))

/-- A point leaves depth and stores as it found them, however it ends. -/
theorem run_holds {c : Context} (hc : c.Aligned) (n : Node) (log : Array Event) :
    ∃ result s, n.run ⟨c, log⟩ = .ok (result, s) ∧ c.Holds 0 s.context := by
  obtain ⟨log', hrun⟩ := n.run_endsIn hc log
  exact ⟨_, _, hrun, .withFrame c _⟩

end Node

/-! ## No chain goes on for ever -/

namespace Node

/-- The second point is entered directly from the first one. -/
def EnteredFrom (p q : Node × Session) : Prop :=
  ∃ k, Enters q.1 q.2 k p.1 p.2

theorem sizeOf_of_ofItem? {item : Item} {n : Node} (h : ofItem? item = some n) :
    sizeOf n = sizeOf item := by
  cases item <;> cases h <;> rfl

theorem eq_singleton_of_theCondition {conditions : List Expr} {body : List Stmt} {e : Expr}
    (h : theCondition conditions body = .ok e) : conditions = [e] := by
  unfold theCondition at h
  split at h <;> cases h
  rfl

/-- What is entered without opening a call is smaller. -/
theorem Enters.sizeOf_lt {n n' : Node} {s s' : Session} (h : Enters n s 0 n' s') :
    sizeOf n' < sizeOf n := by
  cases h with
  | @argument name earlier later e _ _ _ _ _ _ _ _ =>
    have he : sizeOf e < sizeOf (earlier ++ e :: later) :=
      List.sizeOf_lt_of_mem (List.mem_append_right _ List.mem_cons_self)
    simp only [expression.sizeOf_spec, call.sizeOf_spec]
    omega
  | @nth earlier later stmt _ _ _ =>
    have hstmt : sizeOf stmt < sizeOf (earlier ++ stmt :: later) :=
      List.sizeOf_lt_of_mem (List.mem_append_right _ List.mem_cons_self)
    simp only [statement.sizeOf_spec, block.sizeOf_spec]
    omega
  | @condition conditions body e _ hcondition =>
    rw [eq_singleton_of_theCondition hcondition]
    simp only [expression.sizeOf_spec, conditional.sizeOf_spec, List.cons.sizeOf_spec]
    omega
  | @item p earlier later item n _ _ hitems _ hn =>
    obtain ⟨items⟩ := p
    have hitem : sizeOf item < sizeOf items :=
      List.sizeOf_lt_of_mem (hitems.symm ▸ List.mem_append_right _ List.mem_cons_self :
        item ∈ (Program.mk items).items)
    rw [sizeOf_of_ofItem? hn]
    simp only [program.sizeOf_spec, Program.mk.sizeOf_spec]
    omega
  | calls | left | right | definition | conditional | returned | declaration | effectOfCall
  | effect | initializer => simp +arith
  | chosen hcondition =>
    rw [eq_singleton_of_theCondition hcondition]
    simp +arith

/-- Every chain of points that enter one another comes to an end: what is entered has
    less headroom, or as much and is smaller. -/
theorem acc_enteredFrom (n : Node) (s : Session) (hs : s.context.Mirrored) :
    Acc EnteredFrom (n, s) := by
  constructor
  rintro ⟨n', s'⟩ ⟨k, henter : Enters n s k n' s'⟩
  have hless : s'.context.headroom < s.context.headroom ∨
      s'.context.headroom = s.context.headroom ∧ sizeOf n' < sizeOf n := by
    have hk := (henter.holds hs).le_headroom
    rw [(henter.holds hs).headroom_eq]
    cases k with
    | zero => exact .inr ⟨rfl, henter.sizeOf_lt⟩
    | succ k => exact .inl (by omega)
  exact acc_enteredFrom n' s' (henter.mirrored hs)
termination_by (s.context.headroom, sizeOf n)
decreasing_by exact Prod.lex_def.mpr hless

/-- A call that finds its function enters the body, if there is headroom and its
    arguments have values. -/
theorem reaches_body {c : Context} (hc : c.Mirrored) (hroom : c.headroom ≠ 0) {name : Name}
    {r : Routine} {outer : List Frame} (hdefiner : definer? name c.chain.frames = some (r, outer))
    {arguments : List Expr} (hcount : arguments.length = r.parameters.length)
    {values : List Value} (hvalues : Lexical.evaluateAll c.caller c.chain arguments = .ok values)
    (log : Array Event) :
    ∃ s, (call (some name) arguments).Reaches ⟨c, log⟩ 1 (block r.body) s := by
  obtain ⟨f, hf, rfl, -, hcallee⟩ := callee_yields hc.toAligned hdefiner
  rw [← hcount] at hcallee
  obtain ⟨log, hcallee⟩ := hcallee log
  obtain ⟨log', harguments⟩ := evaluateAll_yields hc.toAligned arguments log
  rw [hvalues] at harguments
  have henter := Enters.body hcallee hroom harguments (hc.openCall_eq hf values)
  exact ⟨_, Reaches.refl.step henter⟩

end Node

/-- Every run ends, and stays within its depth. No chain of points goes on for ever, every
    point is run to an end, and calls from it go by the depth of its context. The bodies
    that are running at a point are no more than the headroom at the start; depth and stores
    count them exactly, when the point is entered and when it has ended. So the depth stays
    within the numbers that hold the start and the limit, and each running body finds its
    own one to take off again. -/
theorem depth_within_budget (c : Context) (hc : c.Mirrored) (n : Node) (log : Array Event) :
    Acc Node.EnteredFrom (n, ⟨c, log⟩) ∧
    (∃ result s, n.run ⟨c, log⟩ = .ok (result, s)) ∧
    ∀ k n' s', n.Reaches ⟨c, log⟩ k n' s' →
      k ≤ c.limits.maxCallDepth - c.depth ∧
      s'.context.depth = c.depth + k ∧
      s'.context.variables.size = c.variables.size + k ∧
      s'.context.functions.size = c.functions.size + k ∧
      (∃ result s'', n'.run s' = .ok (result, s'') ∧ c.Holds k s''.context) ∧
      (∀ name arguments, call name arguments s' = callByDepth name arguments s') ∧
      ∀ largest, c.depth ≤ largest → c.limits.maxCallDepth ≤ largest →
        k ≤ s'.context.depth ∧ s'.context.depth ≤ largest := by
  obtain ⟨result, s, hrun, -⟩ := n.run_holds hc.toAligned log
  refine ⟨n.acc_enteredFrom _ hc, ⟨result, s, hrun⟩, ?_⟩
  intro k n' s' hreach
  have hholds : c.Holds k s'.context := hreach.holds hc
  have hs' := hreach.mirrored hc
  obtain ⟨result', s'', hrun', hends⟩ := n'.run_holds hs'.toAligned s'.log
  refine ⟨hholds.le_headroom, hholds.depth_eq, hholds.scopes_eq, hholds.tables_eq,
    ⟨result', s'', hrun', hholds.trans hends⟩,
    fun name arguments => call_eq hs' name arguments, ?_⟩
  intro largest hdepth hlimit
  exact ⟨hholds.depth_eq ▸ Nat.le_add_left k c.depth, hholds.depth_le hdepth hlimit⟩

/-- The last call that numbers of 64 bits have room for. -/
theorem depth_within_budget_largest :
    let c := { Context.sample with depth := 2 ^ 64 - 2, limits := ⟨2 ^ 64 - 1⟩ }
    c.Mirrored ∧
      ∃ s, (Node.call (some "g") [.literal (.boolean true)]).Reaches ⟨c, #[]⟩ 1
          (.block Context.sampleRoutine.body) s ∧
        s.context.depth = 2 ^ 64 - 1 ∧ s.context.variables.size = c.variables.size + 1 := by
  intro c
  have hc : c.Mirrored := Context.mirrored_sample.withDepth _ _
  have hdefiner : definer? "g" c.chain.frames =
      some (Context.sampleRoutine, [Context.sampleRoot]) := by
    change definer? "g" Context.sample.chain.frames = _
    rw [Context.chain_sample]
    rfl
  have hroom : c.headroom ≠ 0 := by decide
  have hvalues : Lexical.evaluateAll c.caller c.chain [.literal (.boolean true)] =
      .ok [.boolean true] := rfl
  obtain ⟨s, hreach⟩ := Node.reaches_body hc hroom hdefiner rfl hvalues #[]
  obtain ⟨-, -, hreached⟩ := depth_within_budget c hc
    (.call (some "g") [.literal (.boolean true)]) #[]
  obtain ⟨-, hdepth, hscopes, -⟩ := hreached 1 _ s hreach
  exact ⟨hc, s, hreach, hdepth, hscopes⟩

end TreeWalk
