-- SUMMARY: More headroom for calls changes no answer but that of a call that was too deep.
import TreeWalk.Proofs.Simulation

/-! # Headroom

The limit on the depth of calls decides one thing only: whether a call is refused as
too deep. No construct takes that refusal back, so what ends in anything else ends in
the same with more headroom.

`Approximates` says this of two results, and evaluation carries it from the calls to
everything that is made of calls. Headroom is where the induction starts: without any,
every call is refused.
-/

namespace TreeWalk

open TreeWalk.Action

variable {α β : Type}

/-- The result is the error of a call that would have been too deep. -/
def Overflows (result : Except RunError α) : Prop :=
  ∃ cause, result = .error cause ∧ cause.kind = .stackOverflow

theorem Overflows.bind {result : Except RunError α} (h : Overflows result)
    (next : α → Except RunError β) : Overflows (result >>= next) := by
  obtain ⟨cause, rfl, hkind⟩ := h
  exact ⟨cause, rfl, hkind⟩

theorem Overflows.map {result : Except RunError α} (h : Overflows result) (f : α → β) :
    Overflows (result.map f) := by
  obtain ⟨cause, rfl, hkind⟩ := h
  exact ⟨cause, rfl, hkind⟩

namespace Lexical

/-! ## Results with more headroom -/

/-- The second result is the first one, unless that one ran out of headroom. -/
def Approximates (result result' : Except RunError α) : Prop :=
  Overflows result ∨ result' = result

/-- The second ending is the first one, unless that one ran out of headroom. -/
def Ending.Approximates (ending ending' : Ending) : Prop :=
  Overflows ending.1 ∨ ending' = ending

/-- Given better arguments, the second caller gives better results. -/
def Caller.Approximates (caller caller' : Caller) : Prop :=
  ∀ (r : Routine) (outer : List Frame) (values values' : Except RunError (List Value)),
    Lexical.Approximates values values' →
      Lexical.Approximates (caller r outer values) (caller' r outer values')

namespace Approximates

theorem refl (result : Except RunError α) : Approximates result result :=
  .inr rfl

theorem bind {result result' : Except RunError α} {next next' : α → Except RunError β}
    (h : Approximates result result') (hnext : ∀ a, Approximates (next a) (next' a)) :
    Approximates (result >>= next) (result' >>= next') := by
  rcases h with h | rfl
  · exact .inl (h.bind next)
  · cases result' with
    | error cause => exact refl _
    | ok a => exact hnext a

theorem map {result result' : Except RunError α} (h : Approximates result result') (f : α → β) :
    Approximates (result.map f) (result'.map f) := by
  rcases h with h | rfl
  · exact .inl (h.map f)
  · exact refl _

/-- A result that keeps the frame approximates as an ending too. -/
theorem ending {result result' : Except RunError (Option Value)}
    (h : Approximates result result') (frame : Frame) :
    Ending.Approximates (result, frame) (result', frame) := by
  rcases h with h | rfl
  · exact .inl h
  · exact .inr rfl

end Approximates

theorem Ending.Approximates.result {ending ending' : Ending} (h : ending.Approximates ending') :
    Lexical.Approximates ending.1 ending'.1 := by
  rcases h with h | rfl
  · exact .inl h
  · exact .inr rfl

theorem Ending.Approximates.andThen {ending ending' : Ending}
    {following following' : Frame → Ending} (h : ending.Approximates ending')
    (hfollowing : ∀ frame, (following frame).Approximates (following' frame)) :
    (ending.andThen following).Approximates (ending'.andThen following') := by
  rcases h with ⟨cause, hcause, hkind⟩ | rfl
  · exact .inl ⟨cause, Ending.andThen_of_error hcause following, hkind⟩
  · obtain ⟨cause | v | _, frame⟩ := ending'
    · exact .inr rfl
    · exact hfollowing frame
    · exact .inr rfl

/-! ## Syntax -/

section Syntax

variable {caller caller' : Caller}

theorem call_approximates (hcaller : caller.Approximates caller') (chain : Chain)
    (name : Option Name) (count : Nat) {values values' : Except RunError (List Value)}
    (hvalues : Approximates values values') :
    Approximates (call caller chain name count values) (call caller' chain name count values') := by
  cases name with
  | none => exact .refl _
  | some name =>
    cases hfound : definer? name chain.frames with
    | none =>
      simp only [call, hfound]
      exact .refl _
    | some found =>
      obtain ⟨r, outer⟩ := found
      simp only [call, hfound]
      by_cases hcount : count = r.parameters.length
      · simp only [if_pos hcount]
        exact hcaller r outer values values' hvalues
      · simp only [if_neg hcount]
        exact .refl _

mutual

theorem evaluate_approximates (hcaller : caller.Approximates caller') (chain : Chain)
    (e : Expr) :
    Approximates (evaluate caller chain e) (evaluate caller' chain e) := by
  match e with
  | .literal v => exact .refl _
  | .parameter v => exact .refl _
  | .access none => exact .refl _
  | .access (some x) => exact .refl _
  | .call name arguments =>
    have harguments := evaluateAll_approximates hcaller chain arguments
    refine (call_approximates hcaller chain name arguments.length harguments).bind fun value => ?_
    exact .refl _
  | .builtIn [operator] [left, right] =>
    refine (evaluate_approximates hcaller chain left).bind fun l => ?_
    refine (evaluate_approximates hcaller chain right).bind fun r => ?_
    exact .refl _
  | .builtIn [] _ | .builtIn (_ :: _ :: _) _ | .builtIn [_] [] | .builtIn [_] [_]
  | .builtIn [_] (_ :: _ :: _ :: _) => exact .refl _
  | .malformed count => exact .refl _
  | .invalid tag => exact .refl _

theorem evaluateAll_approximates (hcaller : caller.Approximates caller') (chain : Chain)
    (es : List Expr) :
    Approximates (evaluateAll caller chain es) (evaluateAll caller' chain es) := by
  match es with
  | [] => exact .refl _
  | e :: es =>
    refine (evaluate_approximates hcaller chain e).bind fun v => ?_
    refine (evaluateAll_approximates hcaller chain es).bind fun vs => ?_
    exact .refl _

end

theorem initial_approximates (hcaller : caller.Approximates caller') (chain : Chain)
    (value : Initializer) :
    Approximates (initial caller chain value) (initial caller' chain value) := by
  cases value with
  | literal v => exact .refl _
  | expression e => exact evaluate_approximates hcaller chain e

theorem declare_approximates (hcaller : caller.Approximates caller') (chain : Chain)
    (name : Option Name) (value : Option Initializer) :
    (declare caller chain name value).Approximates (declare caller' chain name value) := by
  cases name with
  | none => exact .inr rfl
  | some x =>
    cases value with
    | none => exact .inr rfl
    | some value =>
      rcases initial_approximates hcaller chain value with ⟨cause, hcause, hkind⟩ | heq
      · simp only [declare, hcause]
        exact .inl ⟨cause, rfl, hkind⟩
      · simp only [declare, heq]
        exact .inr rfl

theorem discard_approximates (hcaller : caller.Approximates caller') (chain : Chain)
    (e : Expr) :
    Approximates (discard caller chain e) (discard caller' chain e) := by
  have hvalue : Approximates (do let _ ← evaluate caller chain e)
      (do let _ ← evaluate caller' chain e) :=
    (evaluate_approximates hcaller chain e).bind fun _ => .refl _
  cases e with
  | call name arguments =>
    have harguments := evaluateAll_approximates hcaller chain arguments
    exact (call_approximates hcaller chain name arguments.length harguments).bind fun _ => .refl _
  | literal | parameter | access | builtIn | malformed | invalid => exact hvalue

theorem choose_approximates (hcaller : caller.Approximates caller') (chain : Chain)
    (conditions : List Expr) (body : List Stmt)
    {runBody runBody' : Frame → Ending}
    (hbody : (runBody chain.frame).Approximates (runBody' chain.frame)) :
    (choose caller chain conditions body runBody).Approximates
      (choose caller' chain conditions body runBody') := by
  have hcondition : Approximates (theCondition conditions body >>= evaluate caller chain)
      (theCondition conditions body >>= evaluate caller' chain) :=
    (Approximates.refl _).bind (evaluate_approximates hcaller chain)
  rcases hcondition with ⟨cause, hcause, hkind⟩ | heq
  · simp only [choose, hcause]
    exact .inl ⟨cause, rfl, hkind⟩
  · rw [choose, choose, heq]
    cases theCondition conditions body >>= evaluate caller chain with
    | error cause => exact .inr rfl
    | ok v =>
      cases htruthy : v.truthy with
      | true => simpa [htruthy] using hbody
      | false => simp [htruthy, Ending.Approximates]

mutual

theorem execute_approximates (hcaller : caller.Approximates caller')
    (outer : List Frame) (s : Stmt) (frame : Frame) :
    (execute caller outer s frame).Approximates (execute caller' outer s frame) := by
  cases s with
  | functionDefinition name parameters body => exact .inr rfl
  | conditional conditions body =>
    exact choose_approximates hcaller ⟨frame, outer⟩ conditions body
      (executeAll_approximates hcaller outer body frame)
  | returns e => exact ((evaluate_approximates hcaller ⟨frame, outer⟩ e).map some).ending frame
  | declaration name value => exact declare_approximates hcaller ⟨frame, outer⟩ name value
  | expression e =>
    exact ((discard_approximates hcaller ⟨frame, outer⟩ e).map fun _ => none).ending frame
  | malformed count => exact .inr rfl
  | invalid tag => exact .inr rfl

theorem executeAll_approximates (hcaller : caller.Approximates caller')
    (outer : List Frame) (body : List Stmt) (frame : Frame) :
    (executeAll caller outer body frame).Approximates (executeAll caller' outer body frame) := by
  cases body with
  | nil => exact .inr rfl
  | cons s rest =>
    exact (execute_approximates hcaller outer s frame).andThen
      fun frame => executeAll_approximates hcaller outer rest frame

end

theorem executeItem_approximates (hcaller : caller.Approximates caller')
    (outer : List Frame) (item : Item) (frame : Frame) :
    (executeItem caller outer item frame).Approximates (executeItem caller' outer item frame) := by
  cases item with
  | functionDefinition name parameters body => exact .inr rfl
  | conditional conditions body =>
    exact choose_approximates hcaller ⟨frame, outer⟩ conditions body
      (executeAll_approximates hcaller outer body frame)
  | returns e => exact ((evaluate_approximates hcaller ⟨frame, outer⟩ e).map some).ending frame
  | invalid tag => exact .inr rfl

theorem executeItems_approximates (hcaller : caller.Approximates caller')
    (outer : List Frame) (items : List Item) (frame : Frame) :
    (executeItems caller outer items frame).Approximates
      (executeItems caller' outer items frame) := by
  induction items generalizing frame with
  | nil => exact .inr rfl
  | cons item rest ih => exact (executeItem_approximates hcaller outer item frame).andThen ih

theorem run_approximates (hcaller : caller.Approximates caller') (chain : Chain)
    (n : Node) :
    (run caller chain n).Approximates (run caller' chain n) := by
  cases n with
  | expression e => exact ((evaluate_approximates hcaller chain e).map some).ending chain.frame
  | call name arguments =>
    have harguments := evaluateAll_approximates hcaller chain arguments
    exact (call_approximates hcaller chain name arguments.length harguments).ending chain.frame
  | statement s => exact execute_approximates hcaller chain.outer s chain.frame
  | block body => exact executeAll_approximates hcaller chain.outer body chain.frame
  | conditional conditions body =>
    exact choose_approximates hcaller chain conditions body
      (executeAll_approximates hcaller chain.outer body chain.frame)
  | declaration name value => exact declare_approximates hcaller chain name value
  | definition name parameters body => exact .inr rfl
  | program p => exact executeItems_approximates hcaller chain.outer p.items chain.frame

end Syntax

/-! ## Calls -/

/-- More headroom gives better results, whatever the limits are that the refusals
    tell. -/
theorem caller_approximates {headroom headroom' : Nat} (h : headroom ≤ headroom')
    (limit limit' : Nat) :
    (caller limit headroom).Approximates (caller limit' headroom') := by
  induction headroom generalizing headroom' with
  | zero =>
    -- whatever the other caller does: this one refuses every call
    intro r outer values values' hvalues
    exact .inl ⟨.tooDeep r.name limit, rfl, rfl⟩
  | succ headroom ih =>
    obtain ⟨headroom', rfl⟩ := Nat.exists_eq_succ_of_ne_zero (Nat.ne_zero_of_lt h)
    intro r outer values values' hvalues
    refine hvalues.bind fun vs => ?_
    have hbody := executeAll_approximates (ih (Nat.le_of_succ_le_succ h)) outer r.body
      (.ofCall r vs)
    exact hbody.result

end Lexical

/-! ## Runs -/

theorem Context.ending_approximates {c : Context} {depth : Nat} {limits : Limits}
    (h : c.headroom ≤ { c with depth, limits : Context }.headroom) (n : Node) :
    (c.ending n).Approximates ({ c with depth, limits : Context }.ending n) :=
  Lexical.run_approximates (Lexical.caller_approximates h _ _) c.chain n

/-- The run of a program ended in a call that would have been too deep. -/
def Outcome.Overflows (outcome : Outcome) : Prop :=
  ∃ e, outcome = .failed e ∧ e.kind = .stackOverflow

theorem Outcome.overflows_ofResult {result : Except RunError (Option Value)}
    (h : TreeWalk.Overflows result) : (ofResult result).Overflows := by
  obtain ⟨cause, rfl, hkind⟩ := h
  exact ⟨cause.report, rfl, hkind⟩

theorem Program.outcome_approximates (p : Program) {limits limits' : Limits}
    (h : limits.maxCallDepth ≤ limits'.maxCallDepth) :
    (p.outcome limits).Overflows ∨ p.outcome limits' = p.outcome limits := by
  have hcaller := Lexical.caller_approximates h limits.maxCallDepth limits'.maxCallDepth
  rcases Lexical.run_approximates hcaller .root (.program p) with hoverflow | heq
  · exact .inl (Outcome.overflows_ofResult hoverflow)
  · rw [outcome, outcome, heq]
    exact .inr rfl

/-- More headroom for calls changes no answer: of two mirrored contexts that differ in
    depth and limits alone, the one with more headroom gives the same result and the
    same bindings as the other, unless the other ran into a call that was too deep. A
    higher limit changes the outcome of a program in no other way either. -/
theorem headroom_changes_no_answer :
    (∀ c c' : Context, c.Mirrored → c' = { c with depth := c'.depth, limits := c'.limits } →
      c.headroom ≤ c'.headroom → ∀ (n : Node) log log', ∃ result s result' s',
        n.run ⟨c, log⟩ = .ok (result, s) ∧
        n.run ⟨c', log'⟩ = .ok (result', s') ∧
        (¬ Overflows result → result' = result ∧
          s'.context = { s.context with depth := c'.depth, limits := c'.limits }) ∧
        (Overflows result' → Overflows result)) ∧
    (∀ (p : Program) (limits limits' : Limits), limits.maxCallDepth ≤ limits'.maxCallDepth →
      (¬ (p.run limits).outcome.Overflows → (p.run limits').outcome = (p.run limits).outcome) ∧
      ((p.run limits').outcome.Overflows → (p.run limits).outcome.Overflows)) := by
  constructor
  · intro c c' hc hsame h n log log'
    obtain ⟨depth, limits, rfl⟩ : ∃ depth limits, c' = { c with depth, limits } :=
      ⟨_, _, hsame⟩
    obtain ⟨log₁, hrun⟩ := n.run_endsIn hc.toAligned log
    obtain ⟨log₁', hrun'⟩ := n.run_endsIn (hc.toAligned.withDepth depth limits) log'
    refine ⟨_, _, _, _, hrun, hrun', ?_, ?_⟩
    · intro hfits
      rcases Context.ending_approximates h n with hoverflow | heq
      · exact absurd hoverflow hfits
      · rw [heq]
        exact ⟨rfl, rfl⟩
    · intro hoverflow'
      rcases Context.ending_approximates h n with hoverflow | heq
      · exact hoverflow
      · rw [← heq]
        exact hoverflow'
  · intro p limits limits' h
    rw [Program.run, Program.run, p.outcome_runAfter, p.outcome_runAfter]
    rcases p.outcome_approximates h with hoverflow | heq
    · exact ⟨fun hfits => absurd hoverflow hfits, fun _ => hoverflow⟩
    · rw [heq]
      exact ⟨fun _ => rfl, id⟩

/-- A program that never stops calling. -/
def runaway : Program :=
  ⟨[.functionDefinition (some "loop") [] [.returns (.call (some "loop") [])],
    .returns (.call (some "loop") [])]⟩

theorem headroom_changes_no_answer_sample :
    Context.sample.Mirrored ∧
      (∃ s, sampleBlock.run ⟨{ Context.sample with depth := 7, limits := ⟨11⟩ }, #[]⟩ =
        .ok (.ok (some (.string "outer")), s)) ∧
      (runaway.run ⟨2⟩).outcome.Overflows := by
  have hsample := Context.mirrored_sample
  have hending : (Context.sample.ending sampleBlock).1 = .ok (some (.string "outer")) := by
    rw [Context.ending, Context.chain_sample]
    rfl
  refine ⟨hsample, ?_, ?_⟩
  · obtain ⟨result, s, result', s', hrun, hrun', hsame, -⟩ :=
      headroom_changes_no_answer.1 .sample { Context.sample with depth := 7, limits := ⟨11⟩ }
        hsample rfl (by decide) sampleBlock #[] #[]
    have hends := sampleBlock.run_endsIn hsample.toAligned
    have hresult := (Yields.of_run (s := ⟨.sample, #[]⟩) hends hrun).1
    rw [hending] at hresult
    subst hresult
    have hfits : ¬ Overflows (.ok (some (.string "outer")) : Except RunError (Option Value)) := by
      rintro ⟨cause, hcause, -⟩
      cases hcause
    rw [(hsame hfits).1] at hrun'
    exact ⟨s', hrun'⟩
  · have hdeep : (runaway.run ⟨5⟩).outcome.Overflows := by
      rw [Program.run, runaway.outcome_runAfter]
      exact ⟨_, rfl, rfl⟩
    exact (headroom_changes_no_answer.2 runaway ⟨2⟩ ⟨5⟩ (by decide)).2 hdeep

end TreeWalk
