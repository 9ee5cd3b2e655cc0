-- SUMMARY: The calls in the record of a program's run are brackets, which tell the depth and where an error arose.
import TreeWalk.Proofs.Headroom
import TreeWalk.Proofs.Raising
import TreeWalk.Proofs.Recording

/-! # The record of a program's run

Out of the record of a run, the events that open and close calls are brackets. A run that
succeeds has closed them all. A run that fails has written nothing since the error arose, so that
the brackets left open are the calls that were running then: as many as the limit if a call was
too deep, and the innermost one is the function that an undefined variable is reported in.
-/

namespace TreeWalk

open TreeWalk.Action

/-- The events of a run that open and close calls. -/
def Run.calls (r : Run) : List Event :=
  r.log.toList.filter Event.isCall

theorem Run.isCall_of_mem_calls {r : Run} : ∀ e ∈ r.calls, e.isCall = true :=
  fun _ he => (List.mem_filter.mp he).2

/-- A run of a program ends with a value and all calls closed, or with an error that fits the
    calls that are left open. -/
theorem Program.run_traced (p : Program) (limits : Limits) :
    ∃ names, Traced limits.maxCallDepth (p.run limits).log.toList names ∧
      ((∃ value, (p.run limits).outcome = .finished value ∧ names = []) ∨
        ∃ cause, (p.run limits).outcome = .failed cause.report ∧
          cause.Fits limits.maxCallDepth names ∧
          (Node.program p).FailsWith (.new limits) cause (p.run limits).log) := by
  obtain ⟨⟨result, s⟩, hrun, hends⟩ := p.execute_records (.new limits) (Session.tells_new limits)
  have hexecute : p.execute ⟨.new limits, #[]⟩ = .ok (result, s) := hrun
  rw [run, runAfter, hexecute]
  cases hends with
  | @ok value _ hs =>
    have htraced : Traced limits.maxCallDepth (s.log.push .finished).toList [] := by
      rw [Array.toList_push]
      exact hs.traced.other rfl
    exact ⟨[], htraced, .inl ⟨value, rfl, rfl⟩⟩
  | @error cause _ names htraced hcause =>
    exact ⟨names, htraced, .inr ⟨cause, rfl, hcause, s.context, hrun⟩⟩

/-- What executing a program fails with is how its run ends. -/
theorem Program.run_of_failsWith {p : Program} {limits : Limits} {cause : RunError}
    {log : Array Event} (h : (Node.program p).FailsWith (.new limits) cause log) :
    (p.run limits).outcome = .failed cause.report ∧ (p.run limits).log = log := by
  obtain ⟨c, h⟩ := h
  have hexecute : p.execute ⟨.new limits, #[]⟩ = .ok (.error cause, ⟨c, log⟩) := h
  rw [run, runAfter, hexecute]
  exact ⟨rfl, rfl⟩

/-- The calls of a run can be completed to a bracketed sequence, and each was opened with the
    number of calls that were open after it, which is within the limit. A run that succeeds has
    closed all its calls. A run that fails ends with the record of the point at which the error
    arose, so that its open calls are those that were running there: as many as the limit if it
    overflowed, and the innermost one is the function in which a variable was undefined. Any
    point of a run that fails ends it in the same error, and nothing is recorded after it. -/
theorem calls_are_brackets (p : Program) (limits : Limits) :
    (∃ rest, Bracketed ((p.run limits).calls ++ rest)) ∧
    (∀ before name parameters depth,
      before ++ [.called name parameters depth] <+: (p.run limits).calls →
        depth = (openCalls (before ++ [.called name parameters depth])).length ∧
          1 ≤ depth ∧ depth ≤ limits.maxCallDepth) ∧
    ((∃ value, (p.run limits).outcome = .finished value ∧ Bracketed (p.run limits).calls) ∨
      ∃ cause : RunError, (p.run limits).outcome = .failed cause.report ∧
        (∃ k n s c, (Node.program p).Reaches (.new limits) k n s ∧
          n.Raises s cause ⟨c, (p.run limits).log⟩ ∧ n.FailsWith s cause (p.run limits).log) ∧
        (cause.kind = .stackOverflow →
          (openCalls (p.run limits).calls).length = limits.maxCallDepth) ∧
        (cause.kind = .undefinedVariable →
          ∃ x, cause = .undefinedVariable x (openCalls (p.run limits).calls).head?)) ∧
    (∀ k n s cause log, (Node.program p).Reaches (.new limits) k n s → n.FailsWith s cause log →
      (p.run limits).outcome = .failed cause.report ∧ (p.run limits).log = log) := by
  obtain ⟨names, htraced, houtcome⟩ := p.run_traced limits
  have hcalls : Traced limits.maxCallDepth (p.run limits).calls names := htraced.filter
  refine ⟨hcalls.exists_bracketed Run.isCall_of_mem_calls,
    fun _ _ _ _ => hcalls.depth_of_prefix, ?_, fun k n s cause log hreach hfails =>
      Program.run_of_failsWith (hreach.failsWith (Context.mirrored_new limits) hfails)⟩
  rcases houtcome with ⟨value, hfinished, rfl⟩ | ⟨cause, hfailed, hcause, hfails⟩
  · exact .inl ⟨value, hfinished, hcalls.bracketed Run.isCall_of_mem_calls⟩
  · refine .inr ⟨cause, hfailed, hfails.exists_raises (Context.mirrored_new limits), ?_, ?_⟩
    · intro hkind
      rw [hcalls.openCalls_eq]
      cases cause with
      | tooDeep => exact hcause
      | _ => cases hkind
    · intro hkind
      rw [hcalls.openCalls_eq]
      cases cause with
      | undefinedVariable x owner => exact ⟨x, congrArg _ hcause⟩
      | _ => cases hkind

/-- Of a function that never stops calling itself, as many calls are open as there may be. -/
theorem calls_are_brackets_runaway :
    (runaway.run ⟨2⟩).outcome = .failed (RunError.tooDeep "loop" 2).report ∧
      (openCalls (runaway.run ⟨2⟩).calls).length = 2 := by
  have houtcome : (runaway.run ⟨2⟩).outcome = .failed (RunError.tooDeep "loop" 2).report := by
    rw [Program.run, runaway.outcome_runAfter]
    rfl
  obtain ⟨-, -, ⟨value, hfinished, -⟩ | ⟨cause, hfailed, -, hdeep, -⟩, -⟩ :=
    calls_are_brackets runaway ⟨2⟩
  · cases houtcome.symm.trans hfinished
  · have hreport : (RunError.tooDeep "loop" 2).report = cause.report :=
      Outcome.failed.inj (houtcome.symm.trans hfailed)
    exact ⟨houtcome, hdeep (congrArg Error.kind hreport).symm⟩

end TreeWalk
