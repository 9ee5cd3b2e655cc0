-- SUMMARY: Where the errors of a run arise, and that nothing is recorded after that.
import TreeWalk.Proofs.CallDepth
import TreeWalk.Proofs.Sessions

/-! # Where errors arise

An error that a run ends in has arisen at one point of it, in a node that had entered what it had
to enter without an error. `Node.Raises` lists these places, each with the session in which the
error arises. From there the error goes through everything that has entered the node, and what it
goes through closes its calls and does nothing else: the record is the one of the session in
which the error arose. The other way round, whatever point of a run fails, the run fails with it,
since no construct of the language catches an error.
-/

namespace TreeWalk

open TreeWalk.Action

namespace Node

/-- Running a node in a session gives rise to an error, in the second session. -/
inductive Raises : Node → Session → RunError → Session → Prop
  -- expressions
  | namelessAccess {s : Session} : Raises (expression (.access none)) s .namelessAccess s
  | undefinedVariable {x : Name} {owner : Option Name} {s : Session}
      (hfind : s.context.variables.find s.context.scope x = .ok none)
      (howner : s.context.variables.label s.context.scope = .ok owner) :
      Raises (expression (.access (some x))) s (.undefinedVariable x owner) s
  | noValue {name : Option Name} {arguments : List Expr} {s s' : Session}
      (hcall : TreeWalk.call name arguments s = .ok (.ok none, s')) :
      Raises (expression (.call name arguments)) s (.noValue name) s'
  | operator {operator : Operator} {l r : Expr} {v w : Value} {cause : RunError}
      {s s₁ s' : Session} (hleft : l.evaluate s = .ok (.ok v, s₁))
      (hright : r.evaluate s₁ = .ok (.ok w, s')) (happly : operator.apply v w = .error cause) :
      Raises (expression (.builtIn [operator] [l, r])) s cause s'
  | builtInShape {operators : List Operator} {operands : List Expr} {s : Session}
      (hshape : operators.length ≠ 1 ∨ operands.length ≠ 2) :
      Raises (expression (.builtIn operators operands)) s
        (builtInFault operators operands.length) s
  | malformedExpression {count : Nat} {s : Session} :
      Raises (expression (.malformed count)) s (.malformedExpression count) s
  | invalidExpression {tag : Tag} {s : Session} :
      Raises (expression (.invalid tag)) s (.invalidExpression tag) s
  -- calls
  | callee {name : Option Name} {arguments : List Expr} {cause : RunError} {s s' : Session}
      (hcallee : Action.callee name arguments.length s = .ok (.error cause, s')) :
      Raises (call name arguments) s cause s'
  | tooDeep {name : Name} {arguments : List Expr} {f : Closure} {s s' : Session}
      (hcallee : Action.callee (some name) arguments.length s = .ok (.ok f, s'))
      (hheadroom : s'.context.headroom = 0) :
      Raises (call (some name) arguments) s (.tooDeep name s'.context.limits.maxCallDepth) s'
  -- statements
  | malformedStatement {count : Nat} {s : Session} :
      Raises (statement (.malformed count)) s (.malformedStatement count) s
  | invalidStatement {tag : Tag} {s : Session} :
      Raises (statement (.invalid tag)) s (.invalidStatement tag) s
  | condition {conditions : List Expr} {body : List Stmt} {cause : RunError} {s : Session}
      (hcondition : theCondition conditions body = .error cause) :
      Raises (conditional conditions body) s cause s
  | namelessDeclaration {value : Option Initializer} {s : Session} :
      Raises (declaration none value) s .namelessDeclaration s
  | noInitializer {x : Name} {s : Session} :
      Raises (declaration (some x) none) s (.noInitializer x) s
  | namelessDefinition {parameters : List Name} {body : List Stmt} {s : Session} :
      Raises (definition none parameters body) s .namelessDefinition s
  | emptyFunction {name : Name} {parameters : List Name} {s : Session} :
      Raises (definition (some name) parameters []) s (.emptyFunction name) s
  -- programs
  | invalidItem {p : Program} {earlier later : List Item} {tag : Tag} {s s' : Session}
      (hitems : p.items = earlier ++ .invalid tag :: later)
      (hearlier : (do record (.executing p.items.length); executeItems earlier) s =
        .ok (.ok none, s')) :
      Raises (program p) s (.invalidItem tag) s'

end Node

/-! ## The first to fail -/

section

variable {α : Type} {s s' : Session} {cause : RunError}

/-- With the same headroom, evaluation goes on as it would start. -/
theorem withHeadroom_of_headroom (run : Invoker → Action α)
    (h : s'.context.headroom = s.context.headroom) :
    run (invoker s.context.headroom) s' = withHeadroom run s' := by
  rw [← h]
  rfl

theorem context_of_evaluate (hs : s.context.Aligned) {e : Expr} {v : Value}
    (h : e.evaluate s = .ok (.ok v, s')) : s'.context = s.context :=
  ((evaluate_yields hs e).of_run h).2

/-- After an expression, evaluation goes on as it would start. -/
theorem withHeadroom_of_evaluate (hs : s.context.Aligned) {e : Expr} {v : Value}
    (h : e.evaluate s = .ok (.ok v, s')) (run : Invoker → Action α) :
    run (invoker s.context.headroom) s' = withHeadroom run s' :=
  withHeadroom_of_headroom run (congrArg Context.headroom (context_of_evaluate hs h))

/-- A conditional with one condition is run by its value. -/
theorem choose_run {conditions : List Expr} {body : List Stmt} {e : Expr}
    (hcondition : theCondition conditions body = .ok e) :
    choose conditions body s = (do
      if (← e.evaluate).truthy then executeAllWith (invoker s.context.headroom) body
      else pure none) s := by
  change (do
    let condition ← ofResult (theCondition conditions body)
    if (← condition.evaluateWith (invoker s.context.headroom)).truthy then
      executeAllWith (invoker s.context.headroom) body
    else pure none) s = _
  rw [hcondition]
  rfl

theorem evaluateAll_error (hs : s.context.Aligned) {es : List Expr}
    (h : evaluateAll es s = .ok (.error cause, s')) :
    ∃ earlier e later values s₁, es = earlier ++ e :: later ∧
      evaluateAll earlier s = .ok (.ok values, s₁) ∧
      e.evaluate s₁ = .ok (.error cause, s') := by
  induction es generalizing s with
  | nil => cases h
  | cons e es ih =>
    change (do
      let v ← e.evaluate
      let vs ← evaluateAllWith (invoker s.context.headroom) es
      pure (v :: vs)) s = _ at h
    rcases error_of_bind h with h | ⟨v, s₁, hv, h⟩
    · exact ⟨[], e, es, [], s, rfl, rfl, h⟩
    · have hrest (es : List Expr) :=
        withHeadroom_of_evaluate hs hv fun invoke => evaluateAllWith invoke es
      rcases error_of_bind h with h | ⟨vs, s₂, -, h⟩
      · rw [hrest] at h
        obtain ⟨earlier, e', later, values, s₂, rfl, hearlier, he'⟩ :=
          ih (context_of_evaluate hs hv ▸ hs) h
        refine ⟨e :: earlier, e', later, v :: values, s₂, rfl, ?_, he'⟩
        exact (bind_of_ok hv).trans (bind_of_ok ((hrest earlier).trans hearlier))
      · cases h

theorem executeAll_error (hs : s.context.Aligned) {body : List Stmt}
    (h : executeAll body s = .ok (.error cause, s')) :
    ∃ earlier stmt later s₁, body = earlier ++ stmt :: later ∧
      executeAll earlier s = .ok (.ok none, s₁) ∧ stmt.execute s₁ = .ok (.error cause, s') := by
  induction body generalizing s with
  | nil => cases h
  | cons stmt body ih =>
    change (stmt.execute >>= _) s = _ at h
    rcases error_of_bind h with h | ⟨value, s₁, hvalue, h⟩
    · exact ⟨[], stmt, body, s, rfl, rfl, h⟩
    · have hcontext := (Yields.of_run (execute_endsIn hs stmt) hvalue).2
      have hheadroom : s₁.context.headroom = s.context.headroom := by rw [hcontext]; rfl
      have hrest (body : List Stmt) :=
        withHeadroom_of_headroom (fun invoke => executeAllWith invoke body) hheadroom
      cases value with
      | some v => cases h
      | none =>
        dsimp only at h
        rw [hrest] at h
        obtain ⟨earlier, stmt', later, s₂, rfl, hearlier, hstmt'⟩ :=
          ih (hcontext ▸ hs.withFrame _) h
        refine ⟨stmt :: earlier, stmt', later, s₂, rfl, ?_, hstmt'⟩
        exact (bind_of_ok hvalue).trans ((hrest earlier).trans hearlier)

theorem executeItems_error {items : List Item}
    (h : executeItems items s = .ok (.error cause, s')) :
    ∃ earlier item later s₁, items = earlier ++ item :: later ∧
      executeItems earlier s = .ok (.ok none, s₁) ∧ item.execute s₁ = .ok (.error cause, s') := by
  induction items generalizing s with
  | nil => cases h
  | cons item items ih =>
    rcases error_of_bind h with h | ⟨value, s₁, hvalue, h⟩
    · exact ⟨[], item, items, s, rfl, rfl, h⟩
    · cases value with
      | some v => cases h
      | none =>
        obtain ⟨earlier, item', later, s₂, rfl, hearlier, hitem'⟩ := ih h
        exact ⟨item :: earlier, item', later, s₂, rfl, (bind_of_ok hvalue).trans hearlier, hitem'⟩

/-- The first argument that fails ends the whole list. -/
theorem evaluateAll_of_error (hs : s.context.Aligned) {earlier : List Expr} {e : Expr}
    {values : List Value} {s₁ : Session} (hearlier : evaluateAll earlier s = .ok (.ok values, s₁))
    (he : e.evaluate s₁ = .ok (.error cause, s')) (later : List Expr) :
    evaluateAll (earlier ++ e :: later) s = .ok (.error cause, s') := by
  have hcontext := ((evaluateAll_yields hs earlier).of_run hearlier).2
  have hlater := withHeadroom_of_headroom (fun invoke => evaluateAllWith invoke (e :: later))
    (congrArg Context.headroom hcontext)
  have hfails : evaluateAll (e :: later) s₁ = .ok (.error cause, s') := by
    change (e.evaluate >>= _) s₁ = _
    exact bind_of_error he
  change evaluateAllWith (invoker s.context.headroom) (earlier ++ e :: later) s = _
  rw [evaluateAllWith_append]
  exact (bind_of_ok hearlier).trans (bind_of_error (hlater.trans hfails))

/-- A statement that fails ends its block. -/
theorem executeAll_of_error (hs : s.context.Aligned) {earlier : List Stmt} {stmt : Stmt}
    {s₁ : Session} (hearlier : executeAll earlier s = .ok (.ok none, s₁))
    (hstmt : stmt.execute s₁ = .ok (.error cause, s')) (later : List Stmt) :
    executeAll (earlier ++ stmt :: later) s = .ok (.error cause, s') := by
  have hcontext := (Yields.of_run (executeAll_endsIn hs earlier) hearlier).2
  have hheadroom : s₁.context.headroom = s.context.headroom := by rw [hcontext]; rfl
  have hlater := withHeadroom_of_headroom (fun invoke => executeAllWith invoke (stmt :: later))
    hheadroom
  have hfails : executeAll (stmt :: later) s₁ = .ok (.error cause, s') := by
    change (stmt.execute >>= _) s₁ = _
    exact bind_of_error hstmt
  change executeAllWith (invoker s.context.headroom) (earlier ++ stmt :: later) s = _
  rw [executeAllWith_append]
  exact (bind_of_ok hearlier).trans (hlater.trans hfails)

end

/-! ## From an error to its origin -/

namespace Node

/-- The node ends in this error, with this record. -/
def FailsWith (n : Node) (s : Session) (cause : RunError) (log : Array Event) : Prop :=
  ∃ c, n.run s = .ok (.error cause, ⟨c, log⟩)

/-- The error comes from the node itself or from a node that it enters, and the record is the one
    that it came with. -/
def Explains (n : Node) (s : Session) (cause : RunError) (log : Array Event) : Prop :=
  (∃ c, n.Raises s cause ⟨c, log⟩) ∨
    ∃ k n' s', n.Enters s k n' s' ∧ n'.FailsWith s' cause log

theorem execute_functionDefinition (name : Option Name) (parameters : List Name)
    (body : List Stmt) :
    (Stmt.functionDefinition name parameters body).execute =
      (definition name parameters body).run := by
  rw [run, ← bind_pure_comp]
  rfl

theorem execute_declaration (name : Option Name) (value : Option Initializer) :
    (Stmt.declaration name value).execute = (declaration name value).run := by
  rw [run, ← bind_pure_comp]
  rfl

theorem run_of_ofItem? {item : Item} {n : Node} (h : ofItem? item = some n) :
    n.run = item.execute := by
  cases item with
  | functionDefinition name parameters body =>
    cases h
    exact (execute_functionDefinition name parameters body).symm
  | conditional | returns =>
    cases h
    rfl
  | invalid => cases h

variable {s s' : Session} {cause : RunError}

theorem expression_failsWith {e : Expr} (h : e.evaluate s = .ok (.error cause, s')) :
    (expression e).FailsWith s cause s'.log :=
  ⟨s'.context, map_of_error h⟩

theorem operation_explains (hs : s.context.Aligned) {operator : Operator} {l r : Expr}
    (h : (Expr.builtIn [operator] [l, r]).evaluate s = .ok (.error cause, s')) :
    (expression (.builtIn [operator] [l, r])).Explains s cause s'.log := by
  change (do
    let v ← l.evaluate
    let w ← r.evaluateWith (invoker s.context.headroom)
    ofResult (operator.apply v w)) s = _ at h
  rcases error_of_bind h with h | ⟨v, s₁, hv, h⟩
  · exact .inr ⟨0, _, _, .left, expression_failsWith h⟩
  · have hright := withHeadroom_of_evaluate hs hv fun invoke => r.evaluateWith invoke
    rcases error_of_bind h with h | ⟨w, s₂, hw, h⟩
    · rw [hright] at h
      exact .inr ⟨0, _, _, .right hv, expression_failsWith h⟩
    · rw [hright] at hw
      obtain ⟨happly, rfl⟩ := of_ofResult h
      exact .inl ⟨_, .operator hv hw happly⟩

theorem expression_explains (hs : s.context.Aligned) {e : Expr}
    (h : e.evaluate s = .ok (.error cause, s')) : (expression e).Explains s cause s'.log := by
  match e with
  | .literal v => cases h
  | .parameter v => cases h
  | .access none =>
    cases h
    exact .inl ⟨_, .namelessAccess⟩
  | .access (some x) =>
    change readVariable x s = _ at h
    rw [readVariable_run hs] at h
    cases hx : s.context.chain.lookup x with
    | some v =>
      rw [hx] at h
      cases h
    | none =>
      rw [hx] at h
      cases h
      exact .inl ⟨_, .undefinedVariable (hx ▸ hs.find_variable x) hs.label_eq⟩
  | .call name arguments =>
    change (TreeWalk.call name arguments >>= _) s = _ at h
    rcases error_of_bind h with h | ⟨value, s₁, hcall, h⟩
    · exact .inr ⟨0, _, _, .calls, _, h⟩
    · cases value with
      | some v => cases h
      | none =>
        cases h
        exact .inl ⟨_, .noValue hcall⟩
  | .builtIn [operator] [l, r] => exact operation_explains hs h
  | .builtIn [] _ | .builtIn (_ :: _ :: _) _ | .builtIn [_] [] | .builtIn [_] [_]
  | .builtIn [_] (_ :: _ :: _ :: _) =>
    cases h
    exact .inl ⟨_, .builtInShape (by simp)⟩
  | .malformed count =>
    cases h
    exact .inl ⟨_, .malformedExpression⟩
  | .invalid tag =>
    cases h
    exact .inl ⟨_, .invalidExpression⟩

/-- The body has run to an end in the context that the call opened, and closing the call has kept
    its error and its record. -/
theorem block_failsWith_of_inFrame {c : Context} {log : Array Event} (hc : c.Aligned)
    {f : Closure} (hf : f.PlacedIn c) {values : List Value}
    (h : inFrame f values (executeAll f.body) ⟨c, log⟩ = .ok (.error cause, s')) :
    (block f.body).FailsWith
      ⟨c.opened f values, log.push (.called f.name f.parameters (c.depth + 1))⟩ cause s'.log := by
  obtain ⟨log', hbody⟩ := executeAll_endsIn (hc.opened hf values) f.body
    (log.push (.called f.name f.parameters (c.depth + 1)))
  have hends := (inFrame_run hc hf hbody).symm.trans h
  rw [Except.ok.injEq, Prod.mk.injEq] at hends
  obtain ⟨hcause, rfl⟩ := hends
  rw [hcause] at hbody
  exact ⟨_, hbody⟩

theorem call_explains (hs : s.context.Mirrored) {name : Option Name} {arguments : List Expr}
    (h : TreeWalk.call name arguments s = .ok (.error cause, s')) :
    (call name arguments).Explains s cause s'.log := by
  obtain ⟨c, log⟩ := s
  have hc := hs.toAligned
  cases name with
  | none =>
    cases h
    exact .inl ⟨_, .callee rfl⟩
  | some name =>
    rcases callee_run hc (some name) arguments.length with ⟨f, hf, hcallee⟩ | ⟨cause', hcallee, -⟩
    · by_cases hroom : c.headroom = 0
      · rw [call_of_no_headroom hs hcallee hroom] at h
        cases h
        exact .inl ⟨_, .tooDeep hcallee hroom⟩
      · rw [call_of_callee hs hcallee hroom] at h
        rcases error_of_bind h with h | ⟨values, ⟨c₁, log₁⟩, hvalues, hrest⟩
        · obtain ⟨earlier, e, later, values, s₁, rfl, hearlier, he⟩ := evaluateAll_error hc h
          exact .inr ⟨0, _, _, .argument hcallee hroom hearlier, expression_failsWith he⟩
        · obtain rfl : c₁ = c := ((evaluateAll_yields hc arguments).of_run hvalues).2
          rcases error_of_bind hrest with hframe | ⟨result, s₂, -, hrecord⟩
          · exact .inr ⟨1, _, _, .body hcallee hroom hvalues (hc.openCall_eq hf values),
              block_failsWith_of_inFrame hc hf hframe⟩
          · cases hrecord
    · rw [call_eq hs, callByDepth, bind_of_error hcallee] at h
      cases h
      exact .inl ⟨_, .callee hcallee⟩

theorem conditional_explains (hs : s.context.Aligned) {conditions : List Expr} {body : List Stmt}
    (h : choose conditions body s = .ok (.error cause, s')) :
    (conditional conditions body).Explains s cause s'.log := by
  cases hcondition : theCondition conditions body with
  | error cause' =>
    change (ofResult (theCondition conditions body) >>= _) s = _ at h
    rw [hcondition] at h
    cases h
    exact .inl ⟨_, .condition hcondition⟩
  | ok e =>
    rw [choose_run hcondition] at h
    rcases error_of_bind h with h | ⟨v, s₁, hv, h⟩
    · exact .inr ⟨0, _, _, .condition hcondition, expression_failsWith h⟩
    · split at h
      · next htruthy =>
        rw [withHeadroom_of_evaluate hs hv fun invoke => executeAllWith invoke body] at h
        exact .inr ⟨0, _, _, .chosen hcondition hv htruthy, _, h⟩
      · cases h

theorem declaration_explains (hs : s.context.Aligned) {name : Option Name}
    {value : Option Initializer}
    (h : (declaration name value).run s = .ok (.error cause, s')) :
    (declaration name value).Explains s cause s'.log := by
  match name, value with
  | none, _ =>
    cases h
    exact .inl ⟨_, .namelessDeclaration⟩
  | some x, none =>
    cases h
    exact .inl ⟨_, .noInitializer⟩
  | some x, some (.literal v) =>
    have hends := (run_endsIn hs (declaration (some x) (some (.literal v)))).of_run h
    cases hends.1
  | some x, some (.expression e) =>
    have h := error_of_map h
    change (do bindVariable x (← e.evaluate)) s = _ at h
    rcases error_of_bind h with h | ⟨v, s₁, hv, h⟩
    · exact .inr ⟨0, _, _, .initializer, expression_failsWith h⟩
    · cases ((bindVariable_yields (context_of_evaluate hs hv ▸ hs) x v).of_run h).1

theorem definition_explains (hs : s.context.Aligned) {name : Option Name} {parameters : List Name}
    {body : List Stmt} (h : (definition name parameters body).run s = .ok (.error cause, s')) :
    (definition name parameters body).Explains s cause s'.log := by
  match name, body with
  | none, _ =>
    cases h
    exact .inl ⟨_, .namelessDefinition⟩
  | some name, [] =>
    cases h
    exact .inl ⟨_, .emptyFunction⟩
  | some name, stmt :: body =>
    have hends := (run_endsIn hs (definition (some name) parameters (stmt :: body))).of_run h
    cases hends.1

theorem effect_explains {e : Expr} (h : (Stmt.expression e).execute s = .ok (.error cause, s')) :
    (statement (.expression e)).Explains s cause s'.log := by
  change (do e.runWith (invoker s.context.headroom); pure none) s = _ at h
  rcases error_of_bind h with hrun | ⟨_, s₁, -, hnone⟩
  · have heffect (hcall : ∀ name arguments, e ≠ .call name arguments)
        (h : (do let _ ← e.evaluate : Action Unit) s = .ok (.error cause, s')) :
        (statement (.expression e)).Explains s cause s'.log := by
      rcases error_of_bind h with h | ⟨_, s₁, -, hunit⟩
      · exact .inr ⟨0, _, _, .effect hcall, expression_failsWith h⟩
      · cases hunit
    cases e with
    | call name arguments =>
      change (do let _ ← TreeWalk.call name arguments : Action Unit) s = _ at hrun
      rcases error_of_bind hrun with h | ⟨_, s₁, -, hunit⟩
      · exact .inr ⟨0, _, _, .effectOfCall, _, h⟩
      · cases hunit
    | literal | parameter | access | builtIn | malformed | invalid =>
      exact heffect (fun _ _ he => nomatch he) hrun
  · cases hnone

theorem statement_explains {stmt : Stmt} (h : stmt.execute s = .ok (.error cause, s')) :
    (statement stmt).Explains s cause s'.log := by
  cases stmt with
  | functionDefinition name parameters body =>
    rw [execute_functionDefinition] at h
    exact .inr ⟨0, _, _, .definition, _, h⟩
  | conditional conditions body => exact .inr ⟨0, _, _, .conditional, _, h⟩
  | returns e => exact .inr ⟨0, _, _, .returned, _, h⟩
  | declaration name value =>
    rw [execute_declaration] at h
    exact .inr ⟨0, _, _, .declaration, _, h⟩
  | expression e => exact effect_explains h
  | malformed count =>
    cases h
    exact .inl ⟨_, .malformedStatement⟩
  | invalid tag =>
    cases h
    exact .inl ⟨_, .invalidStatement⟩

theorem block_explains (hs : s.context.Aligned) {body : List Stmt}
    (h : executeAll body s = .ok (.error cause, s')) : (block body).Explains s cause s'.log := by
  obtain ⟨earlier, stmt, later, s₁, rfl, hearlier, hstmt⟩ := executeAll_error hs h
  exact .inr ⟨0, _, _, .nth hearlier, _, hstmt⟩

theorem program_explains {p : Program} (h : p.execute s = .ok (.error cause, s')) :
    (program p).Explains s cause s'.log := by
  have hrecord : record (.executing p.items.length) s =
      .ok (.ok (), ⟨s.context, s.log.push (.executing p.items.length)⟩) := rfl
  rw [Program.execute, bind_of_ok hrecord] at h
  obtain ⟨earlier, item, later, s₁, hitems, hearlier, hitem⟩ := executeItems_error h
  have hbefore : (do record (.executing p.items.length); executeItems earlier) s =
      .ok (.ok none, s₁) := (bind_of_ok hrecord).trans hearlier
  cases hn : ofItem? item with
  | some n =>
    rw [← run_of_ofItem? hn] at hitem
    exact .inr ⟨0, _, _, .item hitems hbefore hn, _, hitem⟩
  | none =>
    cases item with
    | invalid tag =>
      cases hitem
      exact .inl ⟨_, .invalidItem hitems hbefore⟩
    | functionDefinition | conditional | returns => cases hn

/-- An error comes from somewhere. -/
theorem FailsWith.explains {n : Node} {log : Array Event} (hs : s.context.Mirrored)
    (h : n.FailsWith s cause log) : n.Explains s cause log := by
  obtain ⟨c, h⟩ := h
  have hc := hs.toAligned
  cases n with
  | expression e => exact expression_explains hc (error_of_map h)
  | call name arguments => exact call_explains hs h
  | statement stmt => exact statement_explains h
  | block body => exact block_explains hc h
  | conditional conditions body => exact conditional_explains hc h
  | declaration name value => exact declaration_explains hc h
  | definition name parameters body => exact definition_explains hc h
  | program p => exact program_explains h

theorem Reaches.head {n₀ n n' : Node} {s₀ s s' : Session} {j k : Nat} (henter : Enters n₀ s₀ j n s)
    (h : Reaches n s k n' s') : Reaches n₀ s₀ (j + k) n' s' := by
  induction h with
  | refl => simpa using Reaches.refl.step henter
  | step _ hnext ih => exact Nat.add_assoc _ _ _ ▸ ih.step hnext

/-- Behind every error that a node ends in there is a point that it reaches, at which the error
    arises, with the record that the point and the node end with. -/
theorem FailsWith.exists_raises {n : Node} {log : Array Event} (hs : s.context.Mirrored)
    (h : n.FailsWith s cause log) :
    ∃ k n' s' c, n.Reaches s k n' s' ∧ n'.Raises s' cause ⟨c, log⟩ ∧ n'.FailsWith s' cause log := by
  have hacc := acc_enteredFrom n s hs
  generalize hp : (n, s) = p at hacc
  induction hacc generalizing n s with
  | intro p _ ih =>
    subst hp
    rcases h.explains hs with ⟨c, hraises⟩ | ⟨j, n₁, s₁, henter, h₁⟩
    · exact ⟨0, n, s, c, .refl, hraises, h⟩
    · obtain ⟨k, n', s', c, hreaches, hraises⟩ :=
        ih (n₁, s₁) ⟨j, henter⟩ (henter.mirrored hs) h₁ rfl
      exact ⟨j + k, n', s', c, hreaches.head henter, hraises⟩

/-! ## From an error to the end of the run -/

/-- A call ends in the error of its body, with the record that the body has made. -/
theorem inFrame_of_block_failsWith {c : Context} {log log' : Array Event} (hc : c.Aligned)
    {f : Closure} (hf : f.PlacedIn c) {values : List Value}
    (h : (block f.body).FailsWith
      ⟨c.opened f values, log.push (.called f.name f.parameters (c.depth + 1))⟩ cause log') :
    inFrame f values (executeAll f.body) ⟨c, log⟩ = .ok (.error cause, ⟨c, log'⟩) := by
  obtain ⟨c', hbody⟩ := h
  have hends := executeAll_endsIn (hc.opened hf values) f.body
  obtain ⟨-, rfl⟩ := Yields.of_run (s := ⟨c.opened f values, _⟩) hends hbody
  exact inFrame_run hc hf hbody

theorem effect_failsWith {e : Expr} {log : Array Event} {c : Context}
    (h : e.runWith (invoker s.context.headroom) s = .ok (.error cause, ⟨c, log⟩)) :
    (statement (.expression e)).FailsWith s cause log := by
  refine ⟨c, ?_⟩
  change (do e.runWith (invoker s.context.headroom); pure none) s = _
  exact bind_of_error h

/-- What a node enters ends it, if it fails: the error is the same, and so is the record. -/
theorem Enters.failsWith {n n' : Node} {k : Nat} {log : Array Event} (h : Enters n s k n' s')
    (hs : s.context.Mirrored) (hfails : n'.FailsWith s' cause log) : n.FailsWith s cause log := by
  have hc := hs.toAligned
  obtain ⟨c', hfails⟩ := hfails
  cases h with
  | @calls name arguments =>
    refine ⟨c', map_of_error ?_⟩
    change (TreeWalk.call name arguments >>= _) s = _
    exact bind_of_error hfails
  | @left operator l r =>
    refine ⟨c', map_of_error ?_⟩
    change (l.evaluate >>= _) s = _
    exact bind_of_error (error_of_map hfails)
  | @right operator l r _ _ _ hleft =>
    have hright := withHeadroom_of_evaluate hc hleft fun invoke => r.evaluateWith invoke
    have hfailing := hright.trans (error_of_map hfails)
    refine ⟨c', map_of_error ?_⟩
    change (l.evaluate >>= _) s = _
    exact (bind_of_ok hleft).trans (bind_of_error hfailing)
  | @argument name earlier later e f values _ s₁ _ hcallee hheadroom hearlier =>
    cases name with
    | none => cases hcallee -- a call without a name has no callee
    | some name =>
      have hcaller := (callee_of_run hc hcallee).1
      have hvalues := evaluateAll_of_error (hcaller ▸ hc) hearlier (error_of_map hfails) later
      exact ⟨_, (call_of_callee hs hcallee hheadroom).trans (bind_of_error hvalues)⟩
  | @body name arguments f values _ s₁ s₂ caller c hcallee hheadroom harguments hopen =>
    cases name with
    | none => cases hcallee
    | some name =>
      obtain ⟨hcaller, hplaced, -⟩ := callee_of_run hc hcallee
      have hcontext := (evaluateAll_of_run hcaller hc harguments).2
      rw [hcontext, hc.openCall_eq hplaced] at hopen
      cases hopen
      obtain ⟨c₂, log₂⟩ := s₂
      obtain rfl : c₂ = s.context := hcontext
      have hframe := inFrame_of_block_failsWith hc hplaced ⟨c', hfails⟩
      refine ⟨s.context, (call_of_callee hs hcallee hheadroom).trans ?_⟩
      exact (bind_of_ok harguments).trans (bind_of_error hframe)
  | definition => exact ⟨c', (execute_functionDefinition _ _ _).symm ▸ hfails⟩
  | declaration => exact ⟨c', (execute_declaration _ _).symm ▸ hfails⟩
  | conditional => exact ⟨c', hfails⟩
  | returned => exact ⟨c', hfails⟩
  | @effectOfCall name arguments =>
    have hrun : (do let _ ← TreeWalk.call name arguments : Action Unit) s =
      .ok (.error cause, ⟨c', log⟩) := bind_of_error hfails
    exact effect_failsWith hrun
  | @effect e _ hcall =>
    have hrun : (do let _ ← e.evaluate : Action Unit) s = .ok (.error cause, ⟨c', log⟩) :=
      bind_of_error (error_of_map hfails)
    cases e with
    | call name arguments => exact absurd rfl (hcall name arguments)
    | literal | parameter | access | builtIn | malformed | invalid =>
      exact effect_failsWith hrun
  | nth hearlier => exact ⟨_, executeAll_of_error hc hearlier hfails _⟩
  | condition hcondition =>
    exact ⟨_, (choose_run hcondition).trans (bind_of_error (error_of_map hfails))⟩
  | @chosen conditions body e v _ _ hcondition hvalue htruthy =>
    have hbody := withHeadroom_of_evaluate hc hvalue fun invoke => executeAllWith invoke body
    refine ⟨c', (choose_run hcondition).trans ((bind_of_ok hvalue).trans ?_)⟩
    rw [if_pos htruthy, hbody]
    exact hfails
  | @initializer x e =>
    refine ⟨c', map_of_error ?_⟩
    change (e.evaluate >>= _) s = _
    exact bind_of_error (error_of_map hfails)
  | @item p earlier later item _ _ _ hitems hearlier hn =>
    rw [run_of_ofItem? hn] at hfails
    refine ⟨c', ?_⟩
    change (do record (.executing p.items.length); executeItems p.items) s = _
    rw [hitems, executeItems_append, ← bind_assoc, ← hitems]
    exact (bind_of_ok hearlier).trans (bind_of_error hfails)

/-- An error at any point of a run is what the whole run ends in, and nothing is recorded after
    it. -/
theorem Reaches.failsWith {n n' : Node} {k : Nat} {log : Array Event} (h : n.Reaches s k n' s')
    (hs : s.context.Mirrored) (hfails : n'.FailsWith s' cause log) : n.FailsWith s cause log := by
  induction h with
  | refl => exact hfails
  | step hreach henter ih => exact ih (henter.failsWith (hreach.mirrored hs) hfails)

end Node

end TreeWalk
