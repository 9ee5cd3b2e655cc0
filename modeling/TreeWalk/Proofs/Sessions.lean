-- SUMMARY: What the steps of evaluation do to whole sessions, their records included.
import TreeWalk.Proofs.Entering

/-! # Steps of sessions

The simulation leaves the record of a session open. Where the record matters, these lemmas say
what a step makes of a whole session: looking something up leaves it as it is, and running a body
in a frame of its own adds the opening of the call to what the body records.
-/

namespace TreeWalk

namespace Action

variable {α β : Type} {action : Action α} {next : α → Action β} {s s' : Session}

theorem bind_of_ok {a : α} (h : action s = .ok (.ok a, s')) : (action >>= next) s = next a s' := by
  rw [bind_apply, h]

theorem bind_of_error {cause : RunError} (h : action s = .ok (.error cause, s')) :
    (action >>= next) s = .ok (.error cause, s') := by
  rw [bind_apply, h]

/-- A sequence fails where its first part fails, or where its second part does. -/
theorem error_of_bind {cause : RunError} (h : (action >>= next) s = .ok (.error cause, s')) :
    action s = .ok (.error cause, s') ∨
      ∃ a s₁, action s = .ok (.ok a, s₁) ∧ next a s₁ = .ok (.error cause, s') := by
  rw [bind_apply] at h
  split at h
  · next a s₁ hrun => exact .inr ⟨a, s₁, hrun, h⟩
  · next cause' s₁ hrun =>
    cases h
    exact .inl hrun
  · cases h

theorem error_of_map {f : α → β} {cause : RunError}
    (h : (f <$> action) s = .ok (.error cause, s')) : action s = .ok (.error cause, s') := by
  rw [← bind_pure_comp] at h
  rcases error_of_bind h with h | ⟨a, s₁, -, h⟩
  · exact h
  · cases h

theorem map_of_error {f : α → β} {cause : RunError} (h : action s = .ok (.error cause, s')) :
    (f <$> action) s = .ok (.error cause, s') := by
  rw [map_apply, h]

theorem of_ofResult {result outcome : Except RunError α}
    (h : ofResult result s = .ok (outcome, s')) : result = outcome ∧ s' = s := by
  rw [ofResult, Except.ok.injEq, Prod.mk.injEq] at h
  exact ⟨h.1, h.2.symm⟩

theorem query_apply {ask : Context → Except StoreFault α} {a : α} (h : ask s.context = .ok a) :
    query ask s = .ok (.ok a, s) := by
  rw [query, h]

end Action

open TreeWalk.Action

variable {s : Session}

theorem readVariable_run (hc : s.context.Aligned) (x : Name) :
    readVariable x s = .ok
      (match s.context.chain.lookup x with
        | some v => .ok v
        | none => .error (.undefinedVariable x s.context.chain.frame.owner), s) := by
  rw [readVariable, bind_of_ok (query_apply (hc.find_variable x))]
  cases s.context.chain.lookup x with
  | some v => rfl
  | none => exact bind_of_ok (query_apply hc.label_eq)

/-- A call finds its function, or ends in an error of its own, without a trace. -/
theorem callee_run (hc : s.context.Aligned) (name : Option Name) (count : Nat) :
    (∃ f, f.PlacedIn s.context ∧ callee name count s = .ok (.ok f, s)) ∨
      ∃ cause, callee name count s = .ok (.error cause, s) ∧
        (cause.kind = .invalidSyntax ∨ cause.kind = .undefinedFunction ∨
          cause.kind = .arityMismatch) := by
  cases name with
  | none => exact .inr ⟨_, rfl, .inl rfl⟩
  | some name =>
    obtain ⟨found, hfind, -, hplaced⟩ := hc.find_function name
    have hquery : (query fun c => c.functions.find c.table name) s = .ok (.ok found, s) :=
      query_apply hfind
    cases found with
    | none => exact .inr ⟨.undefinedFunction name, bind_of_ok hquery, .inr (.inl rfl)⟩
    | some f =>
      by_cases hcount : count = f.arity
      · refine .inl ⟨f, hplaced f rfl, (bind_of_ok hquery).trans ?_⟩
        simp [hcount]
      · refine .inr ⟨.argumentCount name f.arity count, (bind_of_ok hquery).trans ?_,
          .inr (.inr rfl)⟩
        simp only [ne_eq, hcount, not_false_eq_true, if_true]
        rfl

/-- The function that a call reaches has the name that is called. -/
theorem name_of_callee (hc : s.context.Mirrored) {name : Name} {count : Nat} {f : Closure}
    {s' : Session} (h : callee (some name) count s = .ok (.ok f, s')) : f.name = name := by
  obtain ⟨found, hfind, -, -⟩ := hc.find_function name
  have hquery : (query fun c => c.functions.find c.table name) s = .ok (.ok found, s) :=
    query_apply hfind
  change ((query fun c => c.functions.find c.table name) >>= _) s = _ at h
  rw [bind_of_ok hquery] at h
  cases found with
  | none => cases h
  | some g =>
    by_cases hcount : count = g.arity
    · simp only [hcount, ne_eq, not_true_eq_false, if_false] at h
      cases h
      exact hc.name_of_find hfind
    · simp only [hcount, ne_eq, not_false_eq_true, if_true] at h
      cases h

/-- A body that runs in a frame of its own leaves its record, and nothing of its context. -/
theorem inFrame_run {c : Context} (hc : c.Aligned) {f : Closure} (hf : f.PlacedIn c)
    {values : List Value} {body : Action (Option Value)} {result : Except RunError (Option Value)}
    {frame : Frame} {log log' : Array Event}
    (hbody : body ⟨c.opened f values, log.push (.called f.name f.parameters (c.depth + 1))⟩ =
      .ok (result, ⟨(c.opened f values).withFrame frame, log'⟩)) :
    inFrame f values body ⟨c, log⟩ = .ok (result, ⟨c, log'⟩) := by
  have hopen : (update fun c => c.openCall f values) ⟨c, log⟩ =
      .ok (.ok c.mark, ⟨c.opened f values, log⟩) := by
    simp [update, hc.openCall_eq hf]
  have hattempt : attempt body
      ⟨c.opened f values, log.push (.called f.name f.parameters (c.depth + 1))⟩ =
        .ok (.ok result, ⟨(c.opened f values).withFrame frame, log'⟩) := by
    rw [attempt, hbody]
  have hclose : (update fun c' => return ((), ← c'.closeCall c.mark))
      ⟨(c.opened f values).withFrame frame, log'⟩ = .ok (.ok (), ⟨c, log'⟩) := by
    simp only [update, hc.closeCall_opened]
    rfl
  rw [inFrame, bind_of_ok hopen]
  refine (bind_of_ok (α := Context) (a := c.opened f values) rfl).trans ?_
  refine (bind_of_ok (α := Unit) (a := ()) rfl).trans ?_
  exact (bind_of_ok hattempt).trans (bind_of_ok hclose)

/-! ## Sequences -/

theorem evaluateAllWith_append (invoke : Invoker) (earlier later : List Expr) :
    evaluateAllWith invoke (earlier ++ later) = (do
      let vs ← evaluateAllWith invoke earlier
      let ws ← evaluateAllWith invoke later
      pure (vs ++ ws)) := by
  induction earlier with
  | nil => simp [evaluateAllWith]
  | cons e earlier ih => simp [evaluateAllWith, ih]

/-- A block goes on after its first part unless that part returned or failed. -/
theorem executeAllWith_append (invoke : Invoker) (earlier later : List Stmt) :
    executeAllWith invoke (earlier ++ later) = (do
      match ← executeAllWith invoke earlier with
      | some v => pure (some v)
      | none => executeAllWith invoke later) := by
  induction earlier with
  | nil =>
    simp only [List.nil_append, executeAllWith]
    exact (pure_bind _ _).symm
  | cons s earlier ih =>
    simp only [List.cons_append, executeAllWith, ih, bind_assoc]
    refine bind_congr fun value => ?_
    cases value with
    | some v => exact (pure_bind _ _).symm
    | none => rfl

theorem executeItems_append (earlier later : List Item) :
    executeItems (earlier ++ later) = (do
      match ← executeItems earlier with
      | some v => pure (some v)
      | none => executeItems later) := by
  induction earlier with
  | nil => exact (pure_bind _ _).symm
  | cons item earlier ih =>
    simp only [List.cons_append, executeItems, ih, bind_assoc]
    refine bind_congr fun value => ?_
    cases value with
    | some v => exact (pure_bind _ _).symm
    | none => rfl

end TreeWalk
