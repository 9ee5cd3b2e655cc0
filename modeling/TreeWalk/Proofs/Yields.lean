-- SUMMARY: A judgement for what actions end in, with one rule for each way of making an action.
import TreeWalk.Evaluation.Basic

/-! # What actions yield

`action.Yields c result c'` says that from the context `c` the action ends in
`result` and leaves `c'`, whatever has been recorded before. It says in particular
that no store refuses anything on the way. The record itself is left open.

There is one rule for each combinator of `TreeWalk.Evaluation.Action`, so that
nothing below unfolds them again.
-/

namespace TreeWalk

namespace Action

variable {α β : Type}

def Yields (action : Action α) (c : Context) (result : Except RunError α) (c' : Context) : Prop :=
  ∀ log, ∃ log', action ⟨c, log⟩ = .ok (result, ⟨c', log'⟩)

namespace Yields

variable {c c' c'' : Context} {action : Action α} {next : α → Action β}

protected theorem pure (a : α) (c : Context) : (pure a : Action α).Yields c (.ok a) c :=
  fun log => ⟨log, rfl⟩

protected theorem fail (cause : RunError) (c : Context) :
    (fail cause : Action α).Yields c (.error cause) c :=
  fun log => ⟨log, rfl⟩

protected theorem ofResult (result : Except RunError α) (c : Context) :
    (ofResult result).Yields c result c :=
  fun log => ⟨log, rfl⟩

protected theorem query {ask : Context → Except StoreFault α} {a : α} (h : ask c = .ok a) :
    (query ask).Yields c (.ok a) c := by
  intro log
  exact ⟨log, by simp [query, h]⟩

protected theorem update {change : Context → Except StoreFault (α × Context)} {a : α}
    (h : change c = .ok (a, c')) : (update change).Yields c (.ok a) c' := by
  intro log
  exact ⟨log, by simp [update, h]⟩

protected theorem record (e : Event) (c : Context) : (record e).Yields c (.ok ()) c :=
  fun log => ⟨log.push e, rfl⟩

protected theorem context (c : Context) : context.Yields c (.ok c) c :=
  fun log => ⟨log, rfl⟩

theorem bind {a : α} {result : Except RunError β} (h : action.Yields c (.ok a) c')
    (hnext : (next a).Yields c' result c'') : (action >>= next).Yields c result c'' := by
  intro log
  obtain ⟨log', h⟩ := h log
  obtain ⟨log'', hnext⟩ := hnext log'
  exact ⟨log'', by simp [bind_apply, h, hnext]⟩

theorem bind_error {cause : RunError} (h : action.Yields c (.error cause) c') :
    (action >>= next).Yields c (.error cause) c' := by
  intro log
  obtain ⟨log', h⟩ := h log
  exact ⟨log', by simp [bind_apply, h]⟩

/-- Of actions that leave the context alone, the results are what is combined. -/
theorem bind_result {result : Except RunError α} {f : α → Except RunError β}
    (h : action.Yields c result c) (hnext : ∀ a, (next a).Yields c (f a) c) :
    (action >>= next).Yields c (result >>= f) c := by
  cases result with
  | error cause => exact h.bind_error
  | ok a => exact h.bind (hnext a)

theorem map {result : Except RunError α} (f : α → β) (h : action.Yields c result c') :
    (f <$> action).Yields c (result.map f) c' := by
  intro log
  obtain ⟨log', h⟩ := h log
  cases result <;> exact ⟨log', by simp [map_apply, h, Except.map]⟩

theorem attempt {result : Except RunError α} (h : action.Yields c result c') :
    (attempt action).Yields c (.ok result) c' := by
  intro log
  obtain ⟨log', h⟩ := h log
  exact ⟨log', by simp [Action.attempt, h]⟩

/-- Evaluation starts with the headroom of the context that it is run in. -/
theorem withHeadroom {run : Invoker → Action α} {result : Except RunError α}
    (h : (run (invoker c.headroom)).Yields c result c') :
    (withHeadroom run).Yields c result c' :=
  (Yields.context c).bind h

/-- Whatever a run of an action comes to is what the action yields. -/
theorem of_run {result outcome : Except RunError α} {s s' : Session}
    (h : action.Yields s.context result c') (hrun : action s = .ok (outcome, s')) :
    outcome = result ∧ s'.context = c' := by
  obtain ⟨log, h⟩ := h s.log
  cases hrun.symm.trans h
  exact ⟨rfl, rfl⟩

end Yields

end Action

end TreeWalk
