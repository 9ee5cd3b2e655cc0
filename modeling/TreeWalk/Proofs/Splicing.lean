-- SUMMARY: Blocks in sequence, and a conditional as the branch that it chooses.
import TreeWalk.Proofs.Sessions

/-! # Splicing

A block in front of another one either ends both, by returning or by failing, or hands its
context on. A conditional has no scope of its own and its condition leaves no mark, so in a
block it is the same as the statements that it chooses: its body, or nothing.

Both blocks are evaluated lexically to the same ending. Their records differ, since only one
of them has evaluated the condition; `Action.EndAlike` leaves the records out.
-/

namespace TreeWalk

open TreeWalk.Action

/-! ## Sequences of blocks -/

/-- Nothing is executed after a block that returned or failed. -/
theorem executeAll_append_of_ended {s s' : Session} {result : Except RunError (Option Value)}
    {earlier : List Stmt} (hrun : executeAll earlier s = .ok (result, s'))
    (hended : result ≠ .ok none) (later : List Stmt) :
    executeAll (earlier ++ later) s = .ok (result, s') := by
  change executeAllWith (invoker s.context.headroom) earlier s = .ok (result, s') at hrun
  change executeAllWith (invoker s.context.headroom) (earlier ++ later) s = .ok (result, s')
  rw [executeAllWith_append, bind_apply, hrun]
  cases result with
  | error cause => rfl
  | ok value =>
    cases value with
    | some v => rfl
    | none => exact absurd rfl hended

/-! ## Conditionals in a block -/

namespace Lexical

variable {caller : Caller} {chain : Chain} {condition : Expr} {body : List Stmt} {v : Value}

theorem choose_of_value (hbody : body ≠ []) (hv : evaluate caller chain condition = .ok v)
    (runBody : Frame → Ending) :
    choose caller chain [condition] body runBody =
      if v.truthy then runBody chain.frame else (.ok none, chain.frame) := by
  have hvalue : theCondition [condition] body >>= evaluate caller chain = .ok v := by
    rw [theCondition_of_body condition hbody]
    exact hv
  rw [choose, hvalue]

/-- The statements that a conditional comes to when its condition has this value. -/
def branch (v : Value) (body : List Stmt) : List Stmt :=
  if v.truthy then body else []

theorem execute_conditional (hbody : body ≠ []) (hv : evaluate caller chain condition = .ok v) :
    execute caller chain.outer (.conditional [condition] body) chain.frame =
      executeAll caller chain.outer (branch v body) chain.frame := by
  rw [execute, choose_of_value hbody hv, branch]
  split
  · rfl
  · rfl

/-- Behind a block that neither returns nor fails, a conditional is the branch that it
    chooses there. -/
theorem executeAll_conditional {outer : List Frame} {pre : List Stmt} {frame frame₁ : Frame}
    (hpre : executeAll caller outer pre frame = (.ok none, frame₁)) (hbody : body ≠ [])
    (hv : evaluate caller ⟨frame₁, outer⟩ condition = .ok v) (post : List Stmt) :
    executeAll caller outer (pre ++ .conditional [condition] body :: post) frame =
      executeAll caller outer (pre ++ branch v body ++ post) frame := by
  have hbranch := execute_conditional hbody hv
  rw [List.append_assoc, executeAll_append, executeAll_append, hpre]
  change (execute caller outer (.conditional [condition] body) frame₁).andThen
      (executeAll caller outer post) = executeAll caller outer (branch v body ++ post) frame₁
  rw [hbranch, executeAll_append]

end Lexical

/-- A run of a block is what lexical evaluation gives for it. -/
theorem lexical_of_executeAll {c : Context} (hc : c.Aligned) {log : Array Event}
    {body : List Stmt} {result : Except RunError (Option Value)} {s : Session}
    (hrun : executeAll body ⟨c, log⟩ = .ok (result, s)) :
    ∃ frame, Lexical.executeAll c.caller c.chain.outer body c.chain.frame = (result, frame) ∧
      s.context = c.withFrame frame := by
  have hends := executeAll_endsIn hc body
  obtain ⟨hresult, hcontext⟩ := Yields.of_run (s := ⟨c, log⟩) hends hrun
  exact ⟨_, Prod.ext hresult.symm rfl, hcontext⟩

/-- From this context both actions end in one result and leave one context. -/
def Action.EndAlike {α : Type} (action action' : Action α) (c : Context) : Prop :=
  ∃ result c', action.Yields c result c' ∧ action'.Yields c result c'

/-- Behind a block that neither returned nor failed, a conditional whose condition has a
    value is its body if the value counts as true, and nothing if it does not. What returned
    or failed is the end of every block that begins with it, and the record is the same too. -/
theorem conditional_is_chosen_branch (c : Context) (hc : c.Mirrored) (log : Array Event)
    (pre : List Stmt) :
    (∀ (condition : Expr) (v : Value) (s₁ s₂ : Session),
      executeAll pre ⟨c, log⟩ = .ok (.ok none, s₁) → condition.evaluate s₁ = .ok (.ok v, s₂) →
        ∀ body post : List Stmt, body ≠ [] →
          (v.truthy = true → EndAlike
            (executeAll (pre ++ [.conditional [condition] body] ++ post))
            (executeAll (pre ++ body ++ post)) c) ∧
          (v.truthy = false → EndAlike
            (executeAll (pre ++ [.conditional [condition] body] ++ post))
            (executeAll (pre ++ post)) c)) ∧
    (∀ (result : Except RunError (Option Value)) (s₁ : Session),
      executeAll pre ⟨c, log⟩ = .ok (result, s₁) → result ≠ .ok none →
        ∀ rest : List Stmt, executeAll (pre ++ rest) ⟨c, log⟩ = .ok (result, s₁)) := by
  have haligned := hc.toAligned
  refine ⟨?_, fun result s₁ hrun hended rest => executeAll_append_of_ended hrun hended rest⟩
  intro condition v s₁ s₂ hpre hcondition body post hbody
  obtain ⟨frame₁, hending, hcontext⟩ := lexical_of_executeAll haligned hpre
  -- the condition is evaluated on the chain that the first block leaves
  have hafter : s₁.context.Aligned := hcontext ▸ haligned.withFrame frame₁
  have hvalue := (Yields.of_run (evaluate_yields hafter condition) hcondition).1
  rw [hcontext, haligned.chain_withFrame] at hvalue
  have hsame := Lexical.executeAll_conditional hending hbody hvalue.symm post
  have hrun := executeAll_endsIn haligned (pre ++ .conditional [condition] body :: post)
  have hspliced := executeAll_endsIn haligned (pre ++ Lexical.branch v body ++ post)
  rw [hsame] at hrun
  rw [List.append_assoc, List.singleton_append]
  constructor
  · intro htruthy
    rw [Lexical.branch, if_pos htruthy] at hrun hspliced
    exact ⟨_, _, hrun, hspliced⟩
  · intro hfalse
    rw [Lexical.branch, hfalse, if_neg Bool.false_ne_true, List.append_nil] at hrun hspliced
    exact ⟨_, _, hrun, hspliced⟩

/-- Defines `h`, which calls a function of the root, and declares `z` by calling it. -/
def sampleStart : List Stmt :=
  [.functionDefinition (some "h") [] [.returns (.call (some "g") [.literal (.boolean true)])],
    .declaration (some "z") (some (.expression (.call (some "h") [])))]

/-- The condition calls `h` again. The body declares a variable that the statement behind the
    conditional reads. -/
theorem conditional_is_chosen_branch_sample :
    Context.sample.Mirrored ∧
      (∃ s₁ s₂, executeAll sampleStart ⟨.sample, #[]⟩ = .ok (.ok none, s₁) ∧
        (Expr.builtIn [.equality] [.access (some "z"), .call (some "h") []]).evaluate s₁ =
          .ok (.ok (.boolean true), s₂)) ∧
      EndAlike
        (executeAll (sampleStart ++
          [.conditional [.builtIn [.equality] [.access (some "z"), .call (some "h") []]]
            [.declaration (some "w") (some (.expression (.access (some "z"))))]] ++
          [.returns (.access (some "w"))]))
        (executeAll (sampleStart ++
          [.declaration (some "w") (some (.expression (.access (some "z"))))] ++
          [.returns (.access (some "w"))])) .sample ∧
      ∃ s, executeAll ([.returns (.access (some "y"))] ++ [.malformed 0]) ⟨.sample, #[]⟩ =
        .ok (.ok (some (.string "last")), s) := by
  have hc := Context.mirrored_sample
  obtain ⟨log₁, hstart⟩ := executeAll_endsIn hc.toAligned sampleStart #[]
  obtain ⟨log₂, hcondition⟩ := evaluate_yields
    (hc.toAligned.withFrame (Lexical.executeAll Context.sample.caller Context.sample.chain.outer
      sampleStart Context.sample.chain.frame).2)
    (.builtIn [.equality] [.access (some "z"), .call (some "h") []]) log₁
  obtain ⟨log₃, hreturn⟩ := executeAll_endsIn hc.toAligned [.returns (.access (some "y"))] #[]
  rw [hc.toAligned.chain_withFrame] at hcondition
  rw [Context.chain_sample] at hstart hcondition hreturn
  have hchosen := (conditional_is_chosen_branch .sample hc #[] sampleStart).1 _
    (.boolean true) _ _ hstart hcondition
    [.declaration (some "w") (some (.expression (.access (some "z"))))]
    [.returns (.access (some "w"))] (List.cons_ne_nil _ _)
  have hended := (conditional_is_chosen_branch .sample hc #[] [.returns (.access (some "y"))]).2
    (.ok (some (.string "last"))) _ hreturn nofun [.malformed 0]
  exact ⟨hc, ⟨_, _, hstart, hcondition⟩, hchosen.1 rfl, _, hended⟩

end TreeWalk
