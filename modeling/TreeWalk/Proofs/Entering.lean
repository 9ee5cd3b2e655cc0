-- SUMMARY: The points that a run enters on its way, and why no store refuses anything at any of them.
import TreeWalk.Proofs.Simulation

/-! # Entered points

Running a node enters other nodes: its operands, its arguments, the body of what it
calls. `Node.Enters` lists them, each with the session in which it is entered, and
`Node.Reaches` follows them to any nesting. Both count the bodies of functions that
are opened on the way and are still running.

Between two entered points the context changes in one of two ways: the current frame
is replaced, or a call is opened. Both keep a context mirrored, so every point of a
run is entered with stores that are in step.
-/

namespace TreeWalk

open TreeWalk.Action

namespace Node

/-- Running a node in a session enters another node in another session, directly, as
    part of so many function bodies that it opens. -/
inductive Enters : Node → Session → Nat → Node → Session → Prop
  -- expressions
  | calls {name : Option Name} {arguments : List Expr} {s : Session} :
      Enters (expression (.call name arguments)) s 0 (call name arguments) s
  | left {operator : Operator} {l r : Expr} {s : Session} :
      Enters (expression (.builtIn [operator] [l, r])) s 0 (expression l) s
  | right {operator : Operator} {l r : Expr} {v : Value} {s s' : Session}
      (hleft : l.evaluate s = .ok (.ok v, s')) :
      Enters (expression (.builtIn [operator] [l, r])) s 0 (expression r) s'
  -- calls, whose arguments are left alone unless the call may be opened
  | argument {name : Option Name} {earlier later : List Expr} {e : Expr} {f : Closure}
      {values : List Value} {s s₁ s' : Session}
      (hcallee : callee name (earlier ++ e :: later).length s = .ok (.ok f, s₁))
      (hheadroom : s₁.context.headroom ≠ 0)
      (hearlier : evaluateAll earlier s₁ = .ok (.ok values, s')) :
      Enters (call name (earlier ++ e :: later)) s 0 (expression e) s'
  | body {name : Option Name} {arguments : List Expr} {f : Closure} {values : List Value}
      {s s₁ s' : Session} {caller : Mark} {c : Context}
      (hcallee : callee name arguments.length s = .ok (.ok f, s₁))
      (hheadroom : s₁.context.headroom ≠ 0)
      (harguments : evaluateAll arguments s₁ = .ok (.ok values, s'))
      (hopen : s'.context.openCall f values = .ok (caller, c)) :
      Enters (call name arguments) s 1 (block f.body)
        ⟨c, s'.log.push (.called f.name f.parameters c.depth)⟩
  -- statements
  | definition {name : Option Name} {parameters : List Name} {body : List Stmt} {s : Session} :
      Enters (statement (.functionDefinition name parameters body)) s 0
        (definition name parameters body) s
  | conditional {conditions : List Expr} {body : List Stmt} {s : Session} :
      Enters (statement (.conditional conditions body)) s 0 (conditional conditions body) s
  | returned {e : Expr} {s : Session} :
      Enters (statement (.returns e)) s 0 (expression e) s
  | declaration {name : Option Name} {value : Option Initializer} {s : Session} :
      Enters (statement (.declaration name value)) s 0 (declaration name value) s
  | effectOfCall {name : Option Name} {arguments : List Expr} {s : Session} :
      Enters (statement (.expression (.call name arguments))) s 0 (call name arguments) s
  | effect {e : Expr} {s : Session} (hcall : ∀ name arguments, e ≠ .call name arguments) :
      Enters (statement (.expression e)) s 0 (expression e) s
  | nth {earlier later : List Stmt} {stmt : Stmt} {s s' : Session}
      (hearlier : executeAll earlier s = .ok (.ok none, s')) :
      Enters (block (earlier ++ stmt :: later)) s 0 (statement stmt) s'
  | condition {conditions : List Expr} {body : List Stmt} {e : Expr} {s : Session}
      (hcondition : theCondition conditions body = .ok e) :
      Enters (conditional conditions body) s 0 (expression e) s
  | chosen {conditions : List Expr} {body : List Stmt} {e : Expr} {v : Value} {s s' : Session}
      (hcondition : theCondition conditions body = .ok e)
      (hvalue : e.evaluate s = .ok (.ok v, s')) (htruthy : v.truthy = true) :
      Enters (conditional conditions body) s 0 (block body) s'
  | initializer {x : Name} {e : Expr} {s : Session} :
      Enters (declaration (some x) (some (.expression e))) s 0 (expression e) s
  -- programs
  | item {p : Program} {earlier later : List Item} {item : Item} {n : Node} {s s' : Session}
      (hitems : p.items = earlier ++ item :: later)
      (hearlier : (do record (.executing p.items.length); executeItems earlier) s =
        .ok (.ok none, s'))
      (hn : ofItem? item = some n) :
      Enters (program p) s 0 n s'

/-- Running a node in a session enters another node at any nesting, as part of so many
    function bodies that it opens. -/
inductive Reaches (n : Node) (s : Session) : Nat → Node → Session → Prop
  | refl : Reaches n s 0 n s
  | step {k j : Nat} {n' n'' : Node} {s' s'' : Session} (hreach : Reaches n s k n' s')
      (henter : Enters n' s' j n'' s'') : Reaches n s (k + j) n'' s''

/-! ## What a point does to the context -/

/-- A callee that was reached is placed, and is the one that lexical evaluation calls. -/
theorem callee_of_run {s s₁ : Session} (hc : s.context.Aligned) {name : Option Name} {count : Nat}
    {f : Closure} (hcallee : callee name count s = .ok (.ok f, s₁)) :
    s₁.context = s.context ∧ f.PlacedIn s.context ∧ ∀ caller values,
      Lexical.call caller s.context.chain name count values =
        caller f.routine (s.context.framesFrom f.scope) values := by
  rcases callee_cases hc name count with ⟨cause, hfails, -⟩ | ⟨g, hg, hfinds, hcall⟩
  · cases (hfails.of_run hcallee).1
  · obtain ⟨hf, hcontext⟩ := hfinds.of_run hcallee
    cases hf
    exact ⟨hcontext, hg, hcall⟩

theorem evaluateAll_of_run {s s' : Session} {c : Context} (hcontext : s.context = c)
    (hc : c.Aligned) {es : List Expr} {result : Except RunError (List Value)}
    (hrun : evaluateAll es s = .ok (result, s')) :
    result = Lexical.evaluateAll c.caller c.chain es ∧ s'.context = c := by
  subst hcontext
  exact (evaluateAll_yields hc es).of_run hrun

theorem earlierItems_endsIn {c : Context} (hc : c.Aligned) (count : Nat) (earlier : List Item) :
    (do record (.executing count); executeItems earlier).EndsIn c
      (Lexical.executeItems c.caller c.chain.outer earlier c.chain.frame) :=
  (Yields.record _ c).bind (executeItems_endsIn hc earlier)

/-- A point is entered after its node has replaced the current frame, or after it has
    opened one call. -/
theorem Enters.context_cases {n n' : Node} {s s' : Session} {k : Nat}
    (h : Enters n s k n' s') (hs : s.context.Mirrored) :
    (k = 0 ∧ ∃ frame : Frame, frame.Named ∧ s'.context = s.context.withFrame frame) ∨
    (k = 1 ∧ s.context.headroom ≠ 0 ∧ ∃ f values, f.PlacedIn s.context ∧
      s'.context = s.context.opened f values) := by
  have hc := hs.toAligned
  -- a context that was left alone has its own frame as the current one
  have hsame : ∀ {c : Context}, c = s.context →
      ∃ frame : Frame, frame.Named ∧ c = s.context.withFrame frame :=
    fun h => ⟨s.context.chain.frame, hs.named_frame, h.trans hc.withFrame_frame.symm⟩
  cases h with
  | calls | left | definition | conditional | returned | declaration | effectOfCall | effect
  | condition | initializer => exact .inl ⟨rfl, hsame rfl⟩
  | right hleft => exact .inl ⟨rfl, hsame ((evaluate_yields hc _).of_run hleft).2⟩
  | argument hcallee hheadroom hearlier =>
    obtain ⟨hcontext, -⟩ := callee_of_run hc hcallee
    exact .inl ⟨rfl, hsame (evaluateAll_of_run hcontext hc hearlier).2⟩
  | @body name arguments f values _ s₁ s' caller c hcallee hheadroom harguments hopen =>
    obtain ⟨hcontext, hplaced, -⟩ := callee_of_run hc hcallee
    rw [(evaluateAll_of_run hcontext hc harguments).2, hc.openCall_eq hplaced] at hopen
    cases hopen
    rw [hcontext] at hheadroom
    exact .inr ⟨rfl, hheadroom, f, values, hplaced, rfl⟩
  | @nth earlier _ _ _ _ hearlier =>
    have hnamed := Lexical.named_executeAll s.context.caller s.context.chain.outer earlier
      hs.named_frame
    exact .inl ⟨rfl, _, hnamed, (Yields.of_run (executeAll_endsIn hc earlier) hearlier).2⟩
  | chosen hcondition hvalue htruthy =>
    exact .inl ⟨rfl, hsame ((evaluate_yields hc _).of_run hvalue).2⟩
  | @item p earlier _ _ _ _ _ hitems hearlier hn =>
    have hnamed := Lexical.named_executeItems s.context.caller s.context.chain.outer earlier
      hs.named_frame
    have hends := earlierItems_endsIn hc p.items.length earlier
    exact .inl ⟨rfl, _, hnamed, (Yields.of_run hends hearlier).2⟩

theorem Enters.mirrored {n n' : Node} {s s' : Session} {k : Nat} (h : Enters n s k n' s')
    (hs : s.context.Mirrored) : s'.context.Mirrored := by
  rcases h.context_cases hs with ⟨-, frame, hframe, hcontext⟩ | ⟨-, -, f, values, hf, hcontext⟩
  · rw [hcontext]
    exact hs.withFrame hframe
  · rw [hcontext]
    exact hs.opened hf values

theorem Reaches.mirrored {n n' : Node} {s s' : Session} {k : Nat} (h : Reaches n s k n' s')
    (hs : s.context.Mirrored) : s'.context.Mirrored := by
  induction h with
  | refl => exact hs
  | step hreach henter ih => exact henter.mirrored ih

end Node

/-! ## Nothing is refused -/

/-- A run from a mirrored context is never refused anything by a store. -/
theorem Node.run_mirrored {c : Context} (hc : c.Mirrored) (n : Node) (log : Array Event) :
    ∃ result s, n.run ⟨c, log⟩ = .ok (result, s) ∧ s.context.Mirrored := by
  obtain ⟨log', hrun⟩ := n.run_endsIn hc.toAligned log
  exact ⟨_, _, hrun, hc.withFrame (Lexical.named_run c.caller hc.named_frame n)⟩

theorem Program.outcome_ne_broken (p : Program) (limits : Limits) (fault : StoreFault) :
    p.outcome limits ≠ .broken fault := by
  unfold outcome
  cases (Lexical.run (Lexical.caller limits.maxCallDepth limits.maxCallDepth) .root
    (.program p)).1 <;> exact Outcome.noConfusion

/-- The stores of a context are in step at the start and stay so, whatever is run,
    bound or pushed, and however it ends, at every point that a run enters. So no store
    is ever asked for an entry that it does not have, and none is told to drop its root
    or to take an entry without a parent. -/
theorem mirrored_invariant :
    (∀ limits depth, { Context.new limits with depth }.Mirrored) ∧
    (∀ c : Context, c.Mirrored →
      (∀ (n : Node) log, ∃ result s, n.run ⟨c, log⟩ = .ok (result, s) ∧ s.context.Mirrored) ∧
      (∀ x v, ∃ c', c.bind x v = .ok c' ∧ c'.Mirrored) ∧
      (∀ owner, ∃ scopes functions i,
        c.variables.push c.scope owner = .ok (scopes, i) ∧
        c.functions.push c.table () = .ok (functions, i) ∧
        { c with «variables» := scopes, functions : Context }.Mirrored ∧
        { c with «variables» := scopes, functions, scope := i, table := i : Context }.Mirrored) ∧
      (∀ (n : Node) log k n' s', n.Reaches ⟨c, log⟩ k n' s' → s'.context.Mirrored ∧
        ∃ result s'', n'.run s' = .ok (result, s'') ∧ s''.context.Mirrored)) ∧
    (∀ (p : Program) limits log fault, (p.runAfter limits log).outcome ≠ .broken fault) := by
  refine ⟨fun limits depth => (Context.mirrored_new limits).withDepth depth limits, ?_, ?_⟩
  · intro c hc
    refine ⟨Node.run_mirrored hc, hc.bind, hc.push, ?_⟩
    intro n log k n' s' hreach
    have hs' := hreach.mirrored hc
    exact ⟨hs', Node.run_mirrored hs' n' s'.log⟩
  · intro p limits log fault
    rw [p.outcome_runAfter]
    exact p.outcome_ne_broken limits fault

/-- The body of a function is entered with one frame more, and is not refused
    anything either. -/
theorem mirrored_invariant_sampleRoutine :
    Context.sample.Mirrored ∧
      ∃ s, (Node.call (some "g") [.literal (.boolean false)]).Reaches ⟨.sample, #[]⟩ 1
          (.block Context.sampleRoutine.body) s ∧
        s.context.Mirrored ∧
        ∃ result s'', (Node.block Context.sampleRoutine.body).run s = .ok (result, s'') ∧
          s''.context.Mirrored := by
  have hsample := Context.mirrored_sample
  have hdefiner : definer? "g" Context.sample.chain.frames =
      some (Context.sampleRoutine, [Context.sampleRoot]) := by
    rw [Context.chain_sample]
    rfl
  obtain ⟨f, hf, hroutine, -, hcallee⟩ := callee_yields hsample.toAligned hdefiner
  obtain ⟨log, hcallee⟩ := hcallee #[]
  have hcallee : callee (some "g") [Expr.literal (.boolean false)].length ⟨.sample, #[]⟩ =
      .ok (.ok f, ⟨.sample, log⟩) := hcallee
  have hheadroom : Context.sample.headroom ≠ 0 := by decide
  have henter := Node.Enters.body hcallee hheadroom rfl (hsample.openCall_eq hf _)
  have hbody : f.body = Context.sampleRoutine.body := congrArg Routine.body hroutine
  rw [hbody] at henter
  have hreach := Node.Reaches.refl.step henter
  exact ⟨hsample, _, hreach,
    (mirrored_invariant.2.1 _ hsample).2.2.2 _ _ _ _ _ hreach⟩

end TreeWalk
