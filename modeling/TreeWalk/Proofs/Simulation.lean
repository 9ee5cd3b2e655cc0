-- SUMMARY: Evaluation on stores is lexical evaluation on the chain of frames that the stores stand for.
import TreeWalk.Proofs.Mirrored
import TreeWalk.Proofs.Yields
import TreeWalk.Run

/-! # Simulation

From a context whose stores are in step, every action of evaluation yields what
lexical evaluation gives on the chain of the context, and leaves the context with
the current frame replaced by the one that lexical evaluation gives. Expressions
leave the context as it is, because lexical evaluation gives no frame for them.

The proofs follow the recursion of the evaluator: the syntax first, for any invoker
that follows a caller, and then the calls that may still be opened.
-/

namespace TreeWalk

open TreeWalk.Action

variable {c : Context}

/-! ## Steps -/

theorem readVariable_yields (hc : c.Aligned) (x : Name) :
    (readVariable x).Yields c
      (match c.chain.lookup x with
        | some v => .ok v
        | none => .error (.undefinedVariable x c.chain.frame.owner)) c := by
  refine (Yields.query (hc.find_variable x)).bind ?_
  cases c.chain.lookup x with
  | some v => exact Yields.pure v c
  | none => exact (Yields.query hc.label_eq).bind (Yields.fail _ c)

theorem bindVariable_yields (hc : c.Aligned) (x : Name) (v : Value) :
    (bindVariable x v).Yields c (.ok ()) (c.withFrame (c.chain.frame.declare x v)) := by
  refine (Yields.record _ c).bind (Yields.update ?_)
  rw [hc.bind_eq]
  rfl

/-- The callee is the function that the chain finds, in the frame that it was found
    in. -/
theorem callee_yields (hc : c.Aligned) {name : Name} {r : Routine} {outer : List Frame}
    (hdefiner : definer? name c.chain.frames = some (r, outer)) :
    ∃ f : Closure, f.PlacedIn c ∧ f.routine = r ∧ c.framesFrom f.scope = outer ∧
      (callee (some name) r.parameters.length).Yields c (.ok f) c := by
  obtain ⟨found, hfind, hfound, hplaced⟩ := hc.find_function name
  rw [hdefiner] at hfound
  obtain ⟨f, rfl, hf⟩ := Option.map_eq_some_iff.mp hfound.symm
  cases hf
  refine ⟨f, hplaced f rfl, rfl, rfl, (Yields.query hfind).bind ?_⟩
  simpa [Closure.routine, Closure.arity] using Yields.pure f c

/-- A call goes wrong before its arguments in the way that lexical evaluation says,
    or reaches a function that is placed, and whose frames lexical evaluation finds. -/
theorem callee_cases (hc : c.Aligned) (name : Option Name) (count : Nat) :
    (∃ cause, (callee name count).Yields c (.error cause) c ∧
      ∀ caller values, Lexical.call caller c.chain name count values = .error cause) ∨
    (∃ f, f.PlacedIn c ∧ (callee name count).Yields c (.ok f) c ∧
      ∀ caller values, Lexical.call caller c.chain name count values =
        caller f.routine (c.framesFrom f.scope) values) := by
  cases name with
  | none => exact .inl ⟨_, Yields.fail _ c, fun _ _ => rfl⟩
  | some name =>
    obtain ⟨found, hfind, hdefiner, hplaced⟩ := hc.find_function name
    cases found with
    | none =>
      refine .inl ⟨.undefinedFunction name, (Yields.query hfind).bind ?_, ?_⟩
      · exact Yields.fail _ c
      · intro caller values
        simp [Lexical.call, hdefiner]
    | some f =>
      by_cases hcount : count = f.arity
      · subst hcount
        obtain ⟨g, hg, hroutine, houter, hcallee⟩ := callee_yields hc hdefiner
        refine .inr ⟨g, hg, hcallee, ?_⟩
        intro caller values
        rw [hroutine, houter]
        simp [Lexical.call, hdefiner, Closure.routine, Closure.arity]
      · refine .inl ⟨.argumentCount name f.arity count, (Yields.query hfind).bind ?_, ?_⟩
        · simp only [ne_eq, hcount, not_false_eq_true, if_true]
          exact (Yields.fail _ c).bind_error
        · intro caller values
          simp only [Lexical.call, hdefiner, Option.map_some, Closure.routine]
          exact if_neg hcount

/-- Whatever the body of a call does to its own frame, nothing of it is left. -/
theorem inFrame_yields (hc : c.Aligned) {f : Closure} (hf : f.PlacedIn c) {arguments : List Value}
    {body : Action (Option Value)} {result : Except RunError (Option Value)} {frame : Frame}
    (hbody : body.Yields (c.opened f arguments) result
      ((c.opened f arguments).withFrame frame)) :
    (inFrame f arguments body).Yields c result c := by
  have hopen : (update fun c => c.openCall f arguments).Yields c (.ok c.mark)
      (c.opened f arguments) := Yields.update (hc.openCall_eq hf arguments)
  have hclose : (update fun c' => return ((), ← c'.closeCall c.mark)).Yields
      ((c.opened f arguments).withFrame frame) (.ok ()) c := by
    apply Yields.update
    rw [hc.closeCall_opened]
    rfl
  refine hopen.bind ((Yields.context _).bind ((Yields.record _ _).bind ?_))
  exact hbody.attempt.bind (hclose.bind (Yields.ofResult result c))

/-! ## Syntax -/

/-- In contexts with this limit, calls of placed functions yield what the caller
    gives for the frames of the function. -/
def Invoker.Follows (invoke : Invoker) (limit : Nat) (caller : Lexical.Caller) : Prop :=
  ∀ c : Context, c.Aligned → c.limits.maxCallDepth = limit → ∀ f : Closure, f.PlacedIn c →
    ∀ (arguments : Action (List Value)) (values : Except RunError (List Value)),
      arguments.Yields c values c →
        (invoke f arguments).Yields c (caller f.routine (c.framesFrom f.scope) values) c

/-- An action that ends as a statement does: it gives a result, and replaces the
    current frame. -/
def Action.EndsIn (action : Action (Option Value)) (c : Context) (ending : Lexical.Ending) : Prop :=
  action.Yields c ending.1 (c.withFrame ending.2)

theorem Action.EndsIn.of_yields {action : Action (Option Value)} (hc : c.Aligned)
    {result : Except RunError (Option Value)} (h : action.Yields c result c) :
    action.EndsIn c (result, c.chain.frame) := by
  unfold EndsIn
  rw [hc.withFrame_frame]
  exact h

/-- What follows a statement that did not return starts from the frame that the
    statement left. -/
theorem Action.EndsIn.sequence {first rest : Action (Option Value)}
    {ending : Lexical.Ending} {following : Frame → Lexical.Ending} (hfirst : first.EndsIn c ending)
    (hrest : ∀ frame, rest.EndsIn (c.withFrame frame) (following frame)) :
    (do
      match ← first with
      | some v => pure (some v)
      | none => rest : Action (Option Value)).EndsIn c (ending.andThen following) := by
  obtain ⟨result, frame⟩ := ending
  cases result with
  | error cause => exact hfirst.bind_error
  | ok value =>
    cases value with
    | some v => exact hfirst.bind (Yields.pure _ _)
    | none =>
      refine hfirst.bind ?_
      have h := hrest frame
      rw [EndsIn, Context.withFrame_withFrame] at h
      exact h

section Syntax

variable {invoke : Invoker} {limit : Nat} {caller : Lexical.Caller}

theorem callWith_yields (hinvoke : invoke.Follows limit caller) (hc : c.Aligned)
    (hlimit : c.limits.maxCallDepth = limit) (name : Option Name) (count : Nat)
    {arguments : Action (List Value)} {values : Except RunError (List Value)}
    (harguments : arguments.Yields c values c) :
    (callWith invoke name count arguments).Yields c
      (Lexical.call caller c.chain name count values) c := by
  rcases callee_cases hc name count with ⟨cause, hcallee, hcall⟩ | ⟨f, hf, hcallee, hcall⟩
  · rw [hcall]
    exact hcallee.bind_error
  · rw [hcall]
    exact hcallee.bind (hinvoke c hc hlimit f hf arguments values harguments)

mutual

theorem evaluateWith_yields (hinvoke : invoke.Follows limit caller) (hc : c.Aligned)
    (hlimit : c.limits.maxCallDepth = limit) (e : Expr) :
    (e.evaluateWith invoke).Yields c (Lexical.evaluate caller c.chain e) c := by
  match e with
  | .literal v => exact Yields.pure v c
  | .parameter v => exact Yields.pure v c
  | .access none => exact Yields.fail _ c
  | .access (some x) => exact readVariable_yields hc x
  | .call name arguments =>
    have harguments := evaluateAllWith_yields hinvoke hc hlimit arguments
    refine (callWith_yields hinvoke hc hlimit name arguments.length harguments).bind_result ?_
    intro value
    cases value with
    | some v => exact Yields.pure v c
    | none => exact Yields.fail _ c
  | .builtIn [operator] [left, right] =>
    refine (evaluateWith_yields hinvoke hc hlimit left).bind_result fun l => ?_
    refine (evaluateWith_yields hinvoke hc hlimit right).bind_result fun r => ?_
    exact Yields.ofResult (operator.apply l r) c
  | .builtIn [] _ | .builtIn (_ :: _ :: _) _ | .builtIn [_] [] | .builtIn [_] [_]
  | .builtIn [_] (_ :: _ :: _ :: _) => exact Yields.fail _ c
  | .malformed count => exact Yields.fail _ c
  | .invalid tag => exact Yields.fail _ c

theorem evaluateAllWith_yields (hinvoke : invoke.Follows limit caller) (hc : c.Aligned)
    (hlimit : c.limits.maxCallDepth = limit) (es : List Expr) :
    (evaluateAllWith invoke es).Yields c (Lexical.evaluateAll caller c.chain es) c := by
  match es with
  | [] => exact Yields.pure [] c
  | e :: es =>
    refine (evaluateWith_yields hinvoke hc hlimit e).bind_result fun v => ?_
    refine (evaluateAllWith_yields hinvoke hc hlimit es).bind_result fun vs => ?_
    exact Yields.pure (v :: vs) c

end

theorem initializer_yields (hinvoke : invoke.Follows limit caller) (hc : c.Aligned)
    (hlimit : c.limits.maxCallDepth = limit) (value : Initializer) :
    (value.evaluateWith invoke).Yields c (Lexical.initial caller c.chain value) c := by
  cases value with
  | literal v => exact Yields.pure v c
  | expression e => exact evaluateWith_yields hinvoke hc hlimit e

theorem declareWith_endsIn (hinvoke : invoke.Follows limit caller) (hc : c.Aligned)
    (hlimit : c.limits.maxCallDepth = limit) (name : Option Name) (value : Option Initializer) :
    (do declareWith invoke name value; pure none : Action (Option Value)).EndsIn c
      (Lexical.declare caller c.chain name value) := by
  cases name with
  | none => exact .of_yields hc (Yields.fail _ c).bind_error
  | some x =>
    cases value with
    | none => exact .of_yields hc (Yields.fail _ c).bind_error
    | some value =>
      have hvalue := initializer_yields hinvoke hc hlimit value
      simp only [Lexical.declare]
      cases hv : Lexical.initial caller c.chain value with
      | error cause =>
        rw [hv] at hvalue
        exact .of_yields hc hvalue.bind_error.bind_error
      | ok v =>
        rw [hv] at hvalue
        exact (hvalue.bind (bindVariable_yields hc x v)).bind (Yields.pure none _)

theorem define_endsIn (hc : c.Aligned) (name : Option Name) (parameters : List Name)
    (body : List Stmt) :
    (do Action.define name parameters body; pure none : Action (Option Value)).EndsIn c
      (Lexical.define c.chain.frame name parameters body) := by
  cases name with
  | none => exact .of_yields hc (Yields.fail _ c).bind_error
  | some name =>
    rw [Lexical.define]
    cases hbody : body.isEmpty with
    | true =>
      refine .of_yields hc (Yields.bind_error ?_)
      simp only [Action.define, hbody, if_true]
      exact (Yields.fail _ c).bind_error
    | false =>
      obtain ⟨former, hdefine⟩ := hc.define_eq name parameters body
      refine Yields.bind (a := ()) ?_ (Yields.pure none _)
      simp only [Action.define, hbody]
      refine (Yields.update hdefine).bind ?_
      cases former with
      | none => exact Yields.record _ _
      | some former => exact (Yields.record _ _).bind (Yields.record _ _)

theorem runWith_yields (hinvoke : invoke.Follows limit caller) (hc : c.Aligned)
    (hlimit : c.limits.maxCallDepth = limit) (e : Expr) :
    (e.runWith invoke).Yields c (Lexical.discard caller c.chain e) c := by
  have hvalue : (do let _ ← e.evaluateWith invoke : Action Unit).Yields c
      (do let _ ← Lexical.evaluate caller c.chain e) c :=
    (evaluateWith_yields hinvoke hc hlimit e).bind_result fun _ => Yields.pure () c
  cases e with
  | call name arguments =>
    have harguments := evaluateAllWith_yields hinvoke hc hlimit arguments
    exact (callWith_yields hinvoke hc hlimit name arguments.length harguments).bind_result
      fun _ => Yields.pure () c
  | literal | parameter | access | builtIn | malformed | invalid => exact hvalue

theorem chooseWith_endsIn (hinvoke : invoke.Follows limit caller) (hc : c.Aligned)
    (hlimit : c.limits.maxCallDepth = limit) (conditions : List Expr) (body : List Stmt)
    {runBody : Action (Option Value)} {following : Frame → Lexical.Ending}
    (hbody : runBody.EndsIn c (following c.chain.frame)) :
    (chooseWith invoke conditions body runBody).EndsIn c
      (Lexical.choose caller c.chain conditions body following) := by
  have hcondition : (do
      let condition ← ofResult (theCondition conditions body)
      condition.evaluateWith invoke : Action Value).Yields c
        (theCondition conditions body >>= Lexical.evaluate caller c.chain) c :=
    (Yields.ofResult _ c).bind_result fun e => evaluateWith_yields hinvoke hc hlimit e
  have hassoc : chooseWith invoke conditions body runBody = (do
      let v ← (do
        let condition ← ofResult (theCondition conditions body)
        condition.evaluateWith invoke)
      if v.truthy then runBody else pure none) := by
    simp only [chooseWith, bind_assoc]
  rw [hassoc, Lexical.choose]
  cases hresult : theCondition conditions body >>= Lexical.evaluate caller c.chain with
  | error cause =>
    rw [hresult] at hcondition
    exact .of_yields hc hcondition.bind_error
  | ok v =>
    rw [hresult] at hcondition
    cases htruthy : v.truthy with
    | true =>
      refine Yields.bind hcondition ?_
      simp only [htruthy, if_true]
      exact hbody
    | false =>
      simp only [htruthy, Bool.false_eq_true, if_false]
      refine .of_yields hc (Yields.bind hcondition ?_)
      simp only [htruthy]
      exact Yields.pure none c

mutual

theorem executeWith_endsIn (hinvoke : invoke.Follows limit caller) {c : Context} (hc : c.Aligned)
    (hlimit : c.limits.maxCallDepth = limit) (s : Stmt) :
    (s.executeWith invoke).EndsIn c (Lexical.execute caller c.chain.outer s c.chain.frame) := by
  cases s with
  | functionDefinition name parameters body => exact define_endsIn hc name parameters body
  | conditional conditions body =>
    exact chooseWith_endsIn hinvoke hc hlimit conditions body
      (executeAllWith_endsIn hinvoke hc hlimit body)
  | returns e => exact .of_yields hc ((evaluateWith_yields hinvoke hc hlimit e).map some)
  | declaration name value => exact declareWith_endsIn hinvoke hc hlimit name value
  | expression e =>
    exact .of_yields hc ((runWith_yields hinvoke hc hlimit e).map fun _ => none)
  | malformed count => exact .of_yields hc (Yields.fail _ c)
  | invalid tag => exact .of_yields hc (Yields.fail _ c)

theorem executeAllWith_endsIn (hinvoke : invoke.Follows limit caller) {c : Context} (hc : c.Aligned)
    (hlimit : c.limits.maxCallDepth = limit) (body : List Stmt) :
    (executeAllWith invoke body).EndsIn c
      (Lexical.executeAll caller c.chain.outer body c.chain.frame) := by
  cases body with
  | nil => exact .of_yields hc (Yields.pure none c)
  | cons s rest =>
    refine (executeWith_endsIn hinvoke hc hlimit s).sequence fun frame => ?_
    have hrest := executeAllWith_endsIn hinvoke (hc.withFrame frame) hlimit rest
    rw [hc.chain_withFrame] at hrest
    exact hrest

end

end Syntax

/-! ## Calls -/

theorem invoker_follows (limit headroom : Nat) :
    (invoker headroom).Follows limit (Lexical.caller limit headroom) := by
  induction headroom with
  | zero =>
    intro c hc hlimit f hf arguments values harguments
    rw [← hlimit]
    exact (Yields.context c).bind (Yields.fail _ c)
  | succ headroom ih =>
    intro c hc hlimit f hf arguments values harguments
    cases values with
    | error cause => exact harguments.bind_error
    | ok vs =>
      refine harguments.bind ?_
      -- the arguments left the context alone, so the call opens where they started; its body
      -- has one call less, which is what the induction is on
      have hbody := executeAllWith_endsIn ih (hc.opened hf vs) hlimit f.body
      rw [hc.chain_opened hf] at hbody
      have hframe := inFrame_yields hc hf hbody
      change Yields _ c (Lexical.executeAll (Lexical.caller limit headroom) (c.framesFrom f.scope)
        f.body (.ofCall f.routine vs)).1 c
      revert hframe
      generalize Lexical.executeAll (Lexical.caller limit headroom) (c.framesFrom f.scope)
        f.body (.ofCall f.routine vs) = ending
      intro hframe
      obtain ⟨result, frame⟩ := ending
      cases result with
      | error cause => exact hframe.bind_error
      | ok v => exact hframe.bind ((Yields.record _ c).bind (Yields.pure v c))

/-! ## Entry points -/

/-- What calls come to in a context. -/
def Context.caller (c : Context) : Lexical.Caller :=
  Lexical.caller c.limits.maxCallDepth c.headroom

/-- What a node ends in on the chain of a context, by lexical evaluation. -/
def Context.ending (c : Context) (n : Node) : Lexical.Ending :=
  Lexical.run c.caller c.chain n

theorem invoker_follows_caller (c : Context) :
    (invoker c.headroom).Follows c.limits.maxCallDepth c.caller :=
  invoker_follows c.limits.maxCallDepth c.headroom

theorem evaluate_yields (hc : c.Aligned) (e : Expr) :
    e.evaluate.Yields c (Lexical.evaluate c.caller c.chain e) c :=
  Yields.withHeadroom (evaluateWith_yields (invoker_follows_caller c) hc rfl e)

theorem evaluateAll_yields (hc : c.Aligned) (es : List Expr) :
    (evaluateAll es).Yields c (Lexical.evaluateAll c.caller c.chain es) c :=
  Yields.withHeadroom (evaluateAllWith_yields (invoker_follows_caller c) hc rfl es)

theorem call_yields (hc : c.Aligned) (name : Option Name) (arguments : List Expr) :
    (call name arguments).Yields c
      (Lexical.call c.caller c.chain name arguments.length
        (Lexical.evaluateAll c.caller c.chain arguments)) c :=
  have hinvoke := invoker_follows_caller c
  Yields.withHeadroom (callWith_yields hinvoke hc rfl name arguments.length
    (evaluateAllWith_yields hinvoke hc rfl arguments))

theorem execute_endsIn (hc : c.Aligned) (s : Stmt) :
    s.execute.EndsIn c (Lexical.execute c.caller c.chain.outer s c.chain.frame) :=
  Yields.withHeadroom (executeWith_endsIn (invoker_follows_caller c) hc rfl s)

theorem executeAll_endsIn (hc : c.Aligned) (body : List Stmt) :
    (executeAll body).EndsIn c (Lexical.executeAll c.caller c.chain.outer body c.chain.frame) :=
  Yields.withHeadroom (executeAllWith_endsIn (invoker_follows_caller c) hc rfl body)

theorem choose_endsIn (hc : c.Aligned) (conditions : List Expr) (body : List Stmt) :
    (choose conditions body).EndsIn c
      (Lexical.choose c.caller c.chain conditions body
        (Lexical.executeAll c.caller c.chain.outer body)) :=
  have hinvoke := invoker_follows_caller c
  Yields.withHeadroom (chooseWith_endsIn hinvoke hc rfl conditions body
    (executeAllWith_endsIn hinvoke hc rfl body))

theorem declare_endsIn (hc : c.Aligned) (name : Option Name) (value : Option Initializer) :
    (do declare name value; pure none : Action (Option Value)).EndsIn c
      (Lexical.declare c.caller c.chain name value) := by
  have hdeclare : (withHeadroom fun invoke => do declareWith invoke name value; pure none :
      Action (Option Value)).EndsIn c (Lexical.declare c.caller c.chain name value) :=
    Yields.withHeadroom (declareWith_endsIn (invoker_follows_caller c) hc rfl name value)
  exact hdeclare

theorem executeItem_endsIn (hc : c.Aligned) (item : Item) :
    item.execute.EndsIn c (Lexical.executeItem c.caller c.chain.outer item c.chain.frame) := by
  cases item with
  | functionDefinition name parameters body => exact define_endsIn hc name parameters body
  | conditional conditions body => exact choose_endsIn hc conditions body
  | returns e => exact .of_yields hc ((evaluate_yields hc e).map some)
  | invalid tag => exact .of_yields hc (Yields.fail _ c)

theorem executeItems_endsIn (hc : c.Aligned) (items : List Item) :
    (executeItems items).EndsIn c
      (Lexical.executeItems c.caller c.chain.outer items c.chain.frame) := by
  induction items generalizing c with
  | nil => exact .of_yields hc (Yields.pure none c)
  | cons item rest ih =>
    refine (executeItem_endsIn hc item).sequence fun frame => ?_
    have hrest := ih (hc.withFrame frame)
    rw [hc.chain_withFrame] at hrest
    exact hrest

/-- Running a node ends as lexical evaluation says, and changes nothing of the context
    but the current frame. -/
theorem Node.run_endsIn (hc : c.Aligned) (n : Node) : n.run.EndsIn c (c.ending n) := by
  cases n with
  | expression e => exact .of_yields hc ((evaluate_yields hc e).map some)
  | call name arguments => exact .of_yields hc (call_yields hc name arguments)
  | statement s => exact execute_endsIn hc s
  | block body => exact executeAll_endsIn hc body
  | conditional conditions body => exact choose_endsIn hc conditions body
  | declaration name value => exact declare_endsIn hc name value
  | definition name parameters body => exact define_endsIn hc name parameters body
  | program p => exact (Yields.record _ c).bind (executeItems_endsIn hc p.items)

/-- The outcome of a program that was executed with this result. -/
def Outcome.ofResult : Except RunError (Option Value) → Outcome
  | .ok value => .finished value
  | .error cause => .failed cause.report

/-- The outcome of a program, by lexical evaluation. -/
def Program.outcome (p : Program) (limits : Limits) : Outcome :=
  .ofResult (Lexical.run (Lexical.caller limits.maxCallDepth limits.maxCallDepth) .root
    (.program p)).1

theorem Program.outcome_runAfter (p : Program) (limits : Limits) (log : Array Event) :
    (p.runAfter limits log).outcome = p.outcome limits := by
  obtain ⟨log', hrun⟩ := Node.run_endsIn (Context.mirrored_new limits).toAligned (.program p) log
  rw [Context.ending, Context.chain_new] at hrun
  change p.execute ⟨.new limits, log⟩ =
    .ok ((Lexical.run (Lexical.caller limits.maxCallDepth limits.maxCallDepth) .root
      (.program p)).1, _) at hrun
  rw [runAfter, hrun, outcome]
  cases (Lexical.run (Lexical.caller limits.maxCallDepth limits.maxCallDepth) .root
    (.program p)).1 <;> rfl

/-- Evaluation on stores is lexical evaluation: every entry point ends in the result
    that lexical evaluation gives on the chain of the context, and leaves a mirrored
    context whose chain is the one that lexical evaluation leaves. Nothing else of the
    context is changed. -/
theorem run_eq_lexical (c : Context) (hc : c.Mirrored) (n : Node) (log : Array Event) :
    ∃ s, n.run ⟨c, log⟩ = .ok ((Lexical.run c.caller c.chain n).1, s) ∧
      s.context.Mirrored ∧
      s.context.chain = ⟨(Lexical.run c.caller c.chain n).2, c.chain.outer⟩ ∧
      s.context = c.withFrame (Lexical.run c.caller c.chain n).2 := by
  obtain ⟨log', hrun⟩ := Node.run_endsIn hc.toAligned n log
  have hnamed := Lexical.named_run c.caller hc.named_frame n
  exact ⟨_, hrun, hc.withFrame hnamed, hc.chain_withFrame _, rfl⟩

/-- Defines a function in the current frame, and binds what it makes of a function of
    the root that calls itself. -/
def sampleBlock : Node :=
  .block [
    .functionDefinition (some "h") [] [.returns (.call (some "g") [.literal (.boolean true)])],
    .declaration (some "z") (some (.expression (.call (some "h") []))),
    .returns (.access (some "z"))]

theorem run_eq_lexical_sampleBlock :
    Context.sample.Mirrored ∧
      ∃ s, sampleBlock.run ⟨.sample, #[]⟩ = .ok (.ok (some (.string "outer")), s) ∧
        s.context.Mirrored ∧
        (s.context.chain.frame.values.entries =
          [("y", .string "last"), ("z", .string "outer")]) := by
  obtain ⟨s, hrun, hmirrored, hchain, -⟩ :=
    run_eq_lexical .sample Context.mirrored_sample sampleBlock #[]
  rw [Context.chain_sample] at hrun hchain
  refine ⟨Context.mirrored_sample, s, hrun, hmirrored, ?_⟩
  rw [hchain]
  rfl

/-- Evaluation leaves no trace: whatever an expression or a call ends in, the context
    is the one that it started from. -/
theorem evaluation_restores_context (c : Context) (hc : c.Aligned) (log : Array Event) :
    (∀ e : Expr, ∃ result log', e.evaluate ⟨c, log⟩ = .ok (result, ⟨c, log'⟩)) ∧
    (∀ name arguments, ∃ result log',
      call name arguments ⟨c, log⟩ = .ok (result, ⟨c, log'⟩)) :=
  ⟨fun e => ⟨_, evaluate_yields hc e log⟩,
    fun name arguments => ⟨_, call_yields hc name arguments log⟩⟩

/-- An argument that is too deep: the calls that were open are closed again. -/
theorem evaluation_restores_context_tooDeep :
    Context.sample.Aligned ∧
      ∃ log, (Expr.call (some "g") [.call (some "loop") []]).evaluate ⟨.sample, #[]⟩ =
        .ok (.error (.tooDeep "loop" 4), ⟨.sample, log⟩) := by
  have hc := Context.mirrored_sample.toAligned
  obtain ⟨result, log, hrun⟩ := (evaluation_restores_context .sample hc #[]).1
    (.call (some "g") [.call (some "loop") []])
  obtain ⟨log', hresult⟩ := evaluate_yields hc (.call (some "g") [.call (some "loop") []]) #[]
  rw [Context.chain_sample] at hresult
  cases hrun.symm.trans hresult
  exact ⟨hc, log, hrun⟩

end TreeWalk
