-- SUMMARY: The record of a run tells which calls are open, at every event and when an error arises.
import TreeWalk.Proofs.Brackets
import TreeWalk.Proofs.Sessions

/-! # What a run records

A context knows how many calls are open and in whose frame it is, and the record has an event for
every call that was opened or closed. They agree as long as a run goes on: that is what
`Session.Tells` says. An error leaves the record as it is, with the calls open in which it arose,
and what the error says about these calls is right.

`action.Records` is the judgement for it, with one rule for each way of making an action. The
proofs follow the recursion of the evaluator, as those of the simulation do.
-/

namespace TreeWalk

open TreeWalk.Action

variable {α β : Type}

/-- What the error says about the calls that are open where it arises is right. -/
def RunError.Fits (limit : Nat) (names : List Name) : RunError → Prop
  | tooDeep _ _ => names.length = limit
  | undefinedVariable _ owner => owner = names.head?
  | _ => True

/-- Only errors of two kinds speak of the open calls. -/
theorem RunError.Fits.of_kind {cause : RunError} {kind : ErrorKind} (h : cause.kind = kind)
    (hkind : kind ≠ .stackOverflow ∧ kind ≠ .undefinedVariable) {limit : Nat} {names : List Name} :
    cause.Fits limit names := by
  subst h
  cases cause with
  | tooDeep => exact absurd rfl hkind.1
  | undefinedVariable => exact absurd rfl hkind.2
  | _ => exact trivial

/-- The record of the session tells which calls are open in its context: how many there are, and
    in whose frame it is. -/
structure Session.Tells (s : Session) (limit : Nat) (names : List Name) : Prop where
  aligned : s.context.Aligned
  limit_eq : s.context.limits.maxCallDepth = limit
  depth_eq : s.context.depth = names.length
  owner_eq : s.context.chain.frame.owner = names.head?
  traced : Traced limit s.log.toList names

namespace Session.Tells

variable {s : Session} {c : Context} {log : Array Event} {limit : Nat} {names : List Name}

theorem headroom_eq (h : s.Tells limit names) : s.context.headroom = limit - names.length := by
  rw [Context.headroom, h.limit_eq, h.depth_eq]

theorem record (h : Session.Tells ⟨c, log⟩ limit names) {e : Event} (he : e.isCall = false) :
    Session.Tells ⟨c, log.push e⟩ limit names :=
  { h with
    traced := by
      rw [Array.toList_push]
      exact h.traced.other he }

theorem withFrame (h : Session.Tells ⟨c, log⟩ limit names) {f : Frame}
    (hf : f.owner = c.chain.frame.owner) : Session.Tells ⟨c.withFrame f, log⟩ limit names where
  aligned := h.aligned.withFrame f
  limit_eq := h.limit_eq
  depth_eq := h.depth_eq
  owner_eq := by
    rw [h.aligned.chain_withFrame]
    exact hf.trans h.owner_eq
  traced := h.traced

end Session.Tells

namespace Action

/-! ## The judgement -/

/-- What an action may end in that starts with these calls open: a result, with the same calls
    open, or an error, with the calls open in which it arose. -/
inductive Ends (limit : Nat) (names : List Name) : Except RunError α × Session → Prop
  | ok {a : α} {s : Session} (hs : s.Tells limit names) : Ends limit names (.ok a, s)
  | error {cause : RunError} {s : Session} {inner : List Name}
      (htraced : Traced limit s.log.toList inner) (hcause : cause.Fits limit inner) :
      Ends limit names (.error cause, s)

def RecordsAt (action : Action α) (limit : Nat) (names : List Name) (s : Session) : Prop :=
  ∃ outcome, action s = .ok outcome ∧ Ends limit names outcome

/-- The record keeps telling which calls are open. -/
def Records (action : Action α) (limit : Nat) (names : List Name) : Prop :=
  ∀ s : Session, s.Tells limit names → action.RecordsAt limit names s

variable {limit : Nat} {names : List Name} {action : Action α} {next : α → Action β}

theorem RecordsAt.bind {s : Session} (h : action.RecordsAt limit names s)
    (hnext : ∀ a s', s'.Tells limit names → action s = .ok (.ok a, s') →
      (next a).RecordsAt limit names s') :
    (action >>= next).RecordsAt limit names s := by
  obtain ⟨outcome, hrun, hends⟩ := h
  cases hends with
  | ok hs =>
    obtain ⟨outcome', hrun', hends'⟩ := hnext _ _ hs hrun
    exact ⟨outcome', by rw [bind_apply, hrun]; exact hrun', hends'⟩
  | error htraced hcause => exact ⟨_, by rw [bind_apply, hrun], .error htraced hcause⟩

namespace Records

protected theorem pure (a : α) : (pure a : Action α).Records limit names :=
  fun _ hs => ⟨_, rfl, .ok hs⟩

protected theorem fail {cause : RunError} (hcause : cause.Fits limit names) :
    (fail cause : Action α).Records limit names :=
  fun _ hs => ⟨_, rfl, .error hs.traced hcause⟩

theorem fail_bind {cause : RunError} (hcause : cause.Fits limit names) (next : α → Action β) :
    ((fail cause : Action α) >>= next).Records limit names :=
  fun _ hs => ⟨_, rfl, .error hs.traced hcause⟩

protected theorem ofResult {result : Except RunError α}
    (hcause : ∀ cause, result = .error cause → cause.Fits limit names) :
    (ofResult result).Records limit names := by
  intro s hs
  cases result with
  | error cause => exact ⟨_, rfl, .error hs.traced (hcause cause rfl)⟩
  | ok a => exact ⟨_, rfl, .ok hs⟩

protected theorem record {e : Event} (he : e.isCall = false) :
    (record e).Records limit names :=
  fun _ hs => ⟨_, rfl, .ok (hs.record he)⟩

theorem bind (h : action.Records limit names) (hnext : ∀ a, (next a).Records limit names) :
    (action >>= next).Records limit names :=
  fun s hs => (h s hs).bind fun a s' hs' _ => hnext a s' hs'

theorem map (f : α → β) (h : action.Records limit names) : (f <$> action).Records limit names := by
  rw [← bind_pure_comp]
  exact h.bind fun a => .pure (f a)

/-- Evaluation starts with the headroom that the open calls leave. -/
theorem withHeadroom {run : Invoker → Action α}
    (h : (run (invoker (limit - names.length))).Records limit names) :
    (withHeadroom run).Records limit names := by
  intro s hs
  rw [← hs.headroom_eq] at h
  exact h s hs

end Records

end Action

/-! ## Steps -/

section Steps

variable {limit : Nat} {names : List Name}

theorem readVariable_records (x : Name) : (readVariable x).Records limit names := by
  intro s hs
  refine ⟨_, readVariable_run hs.aligned x, ?_⟩
  cases s.context.chain.lookup x with
  | some v => exact .ok hs
  | none => exact .error hs.traced hs.owner_eq

theorem bindVariable_records (x : Name) (v : Value) : (bindVariable x v).Records limit names := by
  refine (Records.record rfl).bind fun _ s hs => ?_
  have hbind : (update fun c => return ((), ← c.bind x v)) s =
      .ok (.ok (), ⟨s.context.withFrame (s.context.chain.frame.declare x v), s.log⟩) := by
    simp only [update, hs.aligned.bind_eq]
    rfl
  exact ⟨_, hbind, .ok (hs.withFrame rfl)⟩

theorem define_records (name : Option Name) (parameters : List Name) (body : List Stmt) :
    (Action.define name parameters body).Records limit names := by
  cases name with
  | none => exact .fail trivial
  | some name =>
    cases hbody : body.isEmpty with
    | true =>
      simp only [Action.define, hbody, if_true]
      have hfits : (RunError.emptyFunction name).Fits limit names := trivial
      exact .fail_bind hfits _
    | false =>
      simp only [Action.define, hbody]
      refine Records.bind (α := Option Closure) (fun s hs => ?_) fun former => ?_
      · obtain ⟨former, hdefine⟩ := hs.aligned.define_eq name parameters body
        refine ⟨_, ?_, .ok (a := former) (hs.withFrame (f := s.context.chain.frame.define
          ⟨name, parameters, body⟩) rfl)⟩
        simp only [update, hdefine]
      · cases former with
        | none => exact .record rfl
        | some former => exact (Records.record rfl).bind fun _ => .record rfl

/-! ### Operators -/

theorem kind_of_add {l r : Number} {cause : RunError} (h : l.add r = .error cause) :
    cause.kind = .invalidCalculation := by
  unfold Number.add at h
  split at h <;> cases h
  rfl

theorem kind_of_sub {l r : Number} {cause : RunError} (h : l.sub r = .error cause) :
    cause.kind = .invalidCalculation := by
  unfold Number.sub at h
  split at h <;> cases h
  rfl

theorem map_eq_error {α β : Type} {f : α → β} {result : Except RunError α} {cause : RunError}
    (h : result.map f = .error cause) : result = .error cause := by
  cases result with
  | error cause' => exact congrArg _ (Except.error.inj h)
  | ok a => cases h

theorem kind_of_apply {operator : Operator} {l r : Value} {cause : RunError}
    (h : operator.apply l r = .error cause) : cause.kind = .invalidCalculation := by
  match operator, l, r with
  | .equality, l, r => cases h
  | .plus, .number l, .number r => exact kind_of_add (map_eq_error h)
  | .plus, .string l, .string r => cases h
  | .plus, .boolean _, _ | .plus, .number _, .string _ | .plus, .number _, .boolean _
  | .plus, .string _, .number _ | .plus, .string _, .boolean _ =>
    cases h
    rfl
  | .minus, .number l, .number r => exact kind_of_sub (map_eq_error h)
  | .minus, .string _, _ | .minus, .boolean _, _ | .minus, .number _, .string _
  | .minus, .number _, .boolean _ =>
    cases h
    rfl

theorem kind_of_builtInFault (operators : List Operator) (count : Nat) :
    (builtInFault operators count).kind = .invalidSyntax := by
  match operators with
  | [] | [_] | _ :: _ :: _ => rfl

theorem kind_of_theCondition {conditions : List Expr} {body : List Stmt} {cause : RunError}
    (h : theCondition conditions body = .error cause) : cause.kind = .invalidSyntax := by
  unfold theCondition at h
  split at h <;> cases h <;> rfl

end Steps

/-! ## Syntax -/

/-- Where these calls are open, a call of a placed function keeps the record, if its arguments do
    and leave the context alone. -/
def Invoker.Records (invoke : Invoker) (limit : Nat) (names : List Name) : Prop :=
  ∀ (s : Session) (f : Closure) (arguments : Action (List Value))
    (values : Except RunError (List Value)), s.Tells limit names → f.PlacedIn s.context →
      arguments.Yields s.context values s.context → arguments.Records limit names →
        (invoke f arguments).RecordsAt limit names s

section Syntax

variable {invoke : Invoker} {limit : Nat} {caller : Lexical.Caller} {names : List Name}

theorem callWith_records (hfollows : invoke.Follows limit caller)
    (hinvoke : invoke.Records limit names) (name : Option Name) {arguments : List Expr}
    (harguments : (evaluateAllWith invoke arguments).Records limit names) :
    (callWith invoke name arguments.length (evaluateAllWith invoke arguments)).Records
      limit names := by
  intro s hs
  rcases callee_run hs.aligned name arguments.length with
    ⟨f, hf, hcallee⟩ | ⟨cause, hcallee, hkind⟩
  · have hyields := evaluateAllWith_yields hfollows hs.aligned hs.limit_eq arguments
    obtain ⟨outcome, hrun, hends⟩ := hinvoke s f _ _ hs hf hyields harguments
    exact ⟨outcome, (bind_of_ok hcallee).trans hrun, hends⟩
  · refine ⟨_, bind_of_error hcallee, .error hs.traced ?_⟩
    rcases hkind with hkind | hkind | hkind <;> exact .of_kind hkind (by decide)

mutual

theorem evaluateWith_records (hfollows : invoke.Follows limit caller)
    (hinvoke : invoke.Records limit names) (e : Expr) :
    (e.evaluateWith invoke).Records limit names := by
  match e with
  | .literal v => exact .pure v
  | .parameter v => exact .pure v
  | .access none => exact .fail trivial
  | .access (some x) => exact readVariable_records x
  | .call name arguments =>
    refine (callWith_records hfollows hinvoke name
      (evaluateAllWith_records hfollows hinvoke arguments)).bind fun value => ?_
    cases value with
    | some v => exact .pure v
    | none => exact .fail trivial
  | .builtIn [operator] [left, right] =>
    refine (evaluateWith_records hfollows hinvoke left).bind fun l => ?_
    refine (evaluateWith_records hfollows hinvoke right).bind fun r => ?_
    exact .ofResult fun cause hcause => .of_kind (kind_of_apply hcause) (by decide)
  | .builtIn [] _ | .builtIn (_ :: _ :: _) _ | .builtIn [_] [] | .builtIn [_] [_]
  | .builtIn [_] (_ :: _ :: _ :: _) =>
    exact .fail (.of_kind (kind_of_builtInFault _ _) (by decide))
  | .malformed count => exact .fail trivial
  | .invalid tag => exact .fail trivial

theorem evaluateAllWith_records (hfollows : invoke.Follows limit caller)
    (hinvoke : invoke.Records limit names) (es : List Expr) :
    (evaluateAllWith invoke es).Records limit names := by
  match es with
  | [] => exact .pure []
  | e :: es =>
    refine (evaluateWith_records hfollows hinvoke e).bind fun v => ?_
    exact (evaluateAllWith_records hfollows hinvoke es).bind fun vs => .pure (v :: vs)

end

theorem declareWith_records (hfollows : invoke.Follows limit caller)
    (hinvoke : invoke.Records limit names) (name : Option Name) (value : Option Initializer) :
    (declareWith invoke name value).Records limit names := by
  match name, value with
  | none, _ => exact .fail trivial
  | some x, none => exact .fail trivial
  | some x, some (.literal v) => exact (Records.pure v).bind fun v => bindVariable_records x v
  | some x, some (.expression e) =>
    exact (evaluateWith_records hfollows hinvoke e).bind fun v => bindVariable_records x v

theorem runWith_records (hfollows : invoke.Follows limit caller)
    (hinvoke : invoke.Records limit names) (e : Expr) :
    (e.runWith invoke).Records limit names := by
  have hvalue : (do let _ ← e.evaluateWith invoke : Action Unit).Records limit names :=
    (evaluateWith_records hfollows hinvoke e).bind fun _ => .pure ()
  cases e with
  | call name arguments =>
    exact (callWith_records hfollows hinvoke name
      (evaluateAllWith_records hfollows hinvoke arguments)).bind fun _ => .pure ()
  | literal | parameter | access | builtIn | malformed | invalid => exact hvalue

theorem chooseWith_records (hfollows : invoke.Follows limit caller)
    (hinvoke : invoke.Records limit names) (conditions : List Expr) (body : List Stmt)
    {runBody : Action (Option Value)} (hbody : runBody.Records limit names) :
    (chooseWith invoke conditions body runBody).Records limit names := by
  refine (Records.ofResult fun cause hcause => ?_).bind fun condition => ?_
  · exact .of_kind (kind_of_theCondition hcause) (by decide)
  · refine (evaluateWith_records hfollows hinvoke condition).bind fun v => ?_
    split
    · exact hbody
    · exact .pure none

mutual

theorem executeWith_records (hfollows : invoke.Follows limit caller)
    (hinvoke : invoke.Records limit names) (s : Stmt) :
    (s.executeWith invoke).Records limit names := by
  cases s with
  | functionDefinition name parameters body =>
    exact (define_records name parameters body).bind fun _ => .pure none
  | conditional conditions body =>
    exact chooseWith_records hfollows hinvoke conditions body
      (executeAllWith_records hfollows hinvoke body)
  | returns e => exact (evaluateWith_records hfollows hinvoke e).map some
  | declaration name value =>
    exact (declareWith_records hfollows hinvoke name value).bind fun _ => .pure none
  | expression e => exact (runWith_records hfollows hinvoke e).bind fun _ => .pure none
  | malformed count => exact .fail trivial
  | invalid tag => exact .fail trivial

theorem executeAllWith_records (hfollows : invoke.Follows limit caller)
    (hinvoke : invoke.Records limit names) (body : List Stmt) :
    (executeAllWith invoke body).Records limit names := by
  cases body with
  | nil => exact .pure none
  | cons s rest =>
    refine (executeWith_records hfollows hinvoke s).bind fun value => ?_
    cases value with
    | some v => exact .pure (some v)
    | none => exact executeAllWith_records hfollows hinvoke rest

end

end Syntax

/-! ## Calls -/

theorem owner_declareAll (f : Frame) (xs : List Name) (vs : List Value) :
    (f.declareAll xs vs).owner = f.owner := by
  induction xs generalizing f vs with
  | nil => rfl
  | cons x xs ih =>
    cases vs with
    | nil => rfl
    | cons v vs => exact ih (f.declare x v) vs

/-- Opening a call, and recording that it was opened. -/
theorem Session.Tells.opened {s : Session} {limit : Nat} {names : List Name}
    (hs : s.Tells limit names) {f : Closure} (hf : f.PlacedIn s.context)
    (hroom : names.length < limit) (values : List Value) :
    Session.Tells ⟨s.context.opened f values,
      s.log.push (.called f.name f.parameters (s.context.depth + 1))⟩ limit (f.name :: names) where
  aligned := hs.aligned.opened hf values
  limit_eq := hs.limit_eq
  depth_eq := congrArg (· + 1) hs.depth_eq
  owner_eq := by
    rw [hs.aligned.chain_opened hf]
    exact owner_declareAll _ _ _
  traced := by
    rw [Array.toList_push, hs.depth_eq]
    exact hs.traced.called hroom f.name f.parameters

/-- The induction is on the calls that may still be opened, which are those that the open ones
    leave of the limit. -/
theorem invoker_records (limit headroom : Nat) {names : List Name}
    (hheadroom : headroom = limit - names.length) :
    (invoker headroom).Records limit names := by
  induction headroom generalizing names with
  | zero =>
    intro s f arguments values hs hf hyields harguments
    have hlimit : names.length = limit := by
      have := hs.traced.length_le
      omega
    refine ⟨_, rfl, .error hs.traced ?_⟩
    exact hlimit
  | succ headroom ih =>
    intro s f arguments values hs hf hyields harguments
    refine (harguments s hs).bind fun vs s₁ hs₁ hrun => ?_
    have hcontext : s₁.context = s.context := (hyields.of_run hrun).2
    rw [← hcontext] at hf
    have hroom : names.length < limit := by omega
    have hopened := hs₁.opened hf hroom vs
    obtain ⟨outcome, hbody, hends⟩ := executeAllWith_records (invoker_follows limit headroom)
      (ih (by rw [List.length_cons]; omega)) f.body _ hopened
    obtain ⟨log, hends'⟩ := executeAllWith_endsIn (invoker_follows limit headroom) hopened.aligned
      hopened.limit_eq f.body (s₁.log.push (.called f.name f.parameters (s₁.context.depth + 1)))
    cases hbody.symm.trans hends'
    have hframe := inFrame_run hs₁.aligned hf hbody
    generalize (Lexical.executeAll (Lexical.caller limit headroom)
      (s₁.context.opened f vs).chain.outer f.body (s₁.context.opened f vs).chain.frame).1 = result
      at hframe hends
    cases hends with
    | error htraced hcause => exact ⟨_, bind_of_error hframe, .error htraced hcause⟩
    | ok hbody =>
      refine ⟨_, (bind_of_ok hframe).trans rfl, .ok ?_⟩
      exact { hs₁ with
        traced := by
          rw [Array.toList_push]
          exact hbody.traced.returned _ }

/-! ## Entry points -/

section

variable {limit : Nat} {names : List Name}

theorem evaluate_records (e : Expr) : e.evaluate.Records limit names :=
  .withHeadroom (evaluateWith_records (invoker_follows limit _) (invoker_records limit _ rfl) e)

theorem choose_records (conditions : List Expr) (body : List Stmt) :
    (choose conditions body).Records limit names :=
  .withHeadroom (chooseWith_records (invoker_follows limit _) (invoker_records limit _ rfl)
    conditions body (executeAllWith_records (invoker_follows limit _) (invoker_records limit _ rfl)
      body))

theorem executeItem_records (item : Item) : item.execute.Records limit names := by
  cases item with
  | functionDefinition name parameters body =>
    exact (define_records name parameters body).bind fun _ => .pure none
  | conditional conditions body => exact choose_records conditions body
  | returns e => exact (evaluate_records e).map some
  | invalid tag => exact .fail trivial

theorem executeItems_records (items : List Item) : (executeItems items).Records limit names := by
  induction items with
  | nil => exact .pure none
  | cons item rest ih =>
    refine (executeItem_records item).bind fun value => ?_
    cases value with
    | some v => exact .pure (some v)
    | none => exact ih

theorem Program.execute_records (p : Program) : p.execute.Records limit names :=
  (Records.record rfl).bind fun _ => executeItems_records p.items

end

theorem Session.tells_new (limits : Limits) :
    (Session.new limits).Tells limits.maxCallDepth [] where
  aligned := (Context.mirrored_new limits).toAligned
  limit_eq := rfl
  depth_eq := rfl
  owner_eq := by
    rw [Session.new, Context.chain_new]
    rfl
  traced := .nil

end TreeWalk
