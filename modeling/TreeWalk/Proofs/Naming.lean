-- SUMMARY: Names are only names: renamed runs end as the runs that they are renamed from.
import TreeWalk.Proofs.Correspondence
import TreeWalk.Proofs.Simulation

/-! # Names are only names

Evaluation compares names and hands them on, and nothing else. So a run with other names on
frames with other names is the same run: `Renaming.correspondence` is the correspondence
between the two, in which no error is excused.

For whole contexts the names have to be changed wherever a store holds some. Scopes bind
variables and carry the name of the function that was called; tables bind functions, whose
bodies are full of names.
-/

namespace TreeWalk

variable {ρ : Renaming}

/-! ## Frames -/

theorem Chain.lookup_rename {c c' : Chain} (h : c'.frames = c.frames.map (Frame.rename ρ))
    (x : Name) : c'.lookup (ρ.onVariables x) = c.lookup x := by
  rw [lookup, lookup, h, List.findSome?_map]
  congr 1
  funext f
  exact Bindings.get?_rename ρ.variables_injective f.values x

theorem definer?_rename (name : Name) (fs : List Frame) :
    definer? (ρ.onFunctions name) (fs.map (Frame.rename ρ)) =
      (definer? name fs).map fun found =>
        (found.1.rename ρ, found.2.map (Frame.rename ρ)) := by
  induction fs with
  | nil => rfl
  | cons f fs ih =>
    rw [List.map_cons, definer?, definer?, ih, Frame.rename,
      Bindings.get?_rename ρ.functions_injective, Bindings.get?_map]
    cases f.functions.get? name <;> rfl

namespace Renaming

/-- Renamed frames correspond to those that they are renamed from. -/
def correspondence (ρ : Renaming) : Lexical.Correspondence where
  names := ρ
  Excused _ := False
  Frames fs fs' := fs' = fs.map (Frame.rename ρ)
  lookup_some h _ _ hx := (Chain.lookup_rename h _).trans hx
  lookup_none h x hx := by
    refine .inr ⟨(Chain.lookup_rename h x).trans hx, ?_⟩
    rw [(List.cons.inj h).1]
    rfl
  definer?_some h name r outer hr := by
    refine ⟨outer.map (Frame.rename ρ), ?_, rfl⟩
    rw [h, definer?_rename, hr]
    rfl
  definer?_none h name hr := by
    refine .inr ?_
    rw [h, definer?_rename, hr]
    rfl
  frames_declare h x v := by
    rw [(List.cons.inj h).1, (List.cons.inj h).2, List.map_cons, Frame.rename_declare]
  frames_define h r := by
    rw [(List.cons.inj h).1, (List.cons.inj h).2, List.map_cons, Frame.rename_define]
  frames_ofCall h r vs := by
    rw [h, List.map_cons, Frame.rename_ofCall]

end Renaming

/-! ## Contexts -/

namespace Store

variable {ℓ ℓ' α α' : Type} (label : ℓ → ℓ') (bindings : Bindings α → Bindings α')

/-- Changes the labels and the bindings of all entries. -/
def map (s : Store ℓ α) : Store ℓ' α' :=
  ⟨s.entries.map fun e => ⟨bindings e.bindings, e.parent, label e.label⟩⟩

theorem getElem?_map (s : Store ℓ α) (i : Nat) :
    (s.map label bindings).entries[i]? =
      s.entries[i]?.map fun e => ⟨bindings e.bindings, e.parent, label e.label⟩ :=
  Array.getElem?_map

@[simp] theorem size_map (s : Store ℓ α) : (s.map label bindings).size = s.size :=
  Array.size_map

@[simp] theorem parent?_map (s : Store ℓ α) (i : Nat) :
    (s.map label bindings).parent? i = s.parent? i := by
  rw [parent?, parent?, getElem?_map]
  cases s.entries[i]? <;> rfl

theorem map_overwrite (s : Store ℓ α) (i : Nat) (l : ℓ) (b : Bindings α) :
    (s.overwrite i l b).map label bindings =
      (s.map label bindings).overwrite i (label l) (bindings b) := by
  apply ext_getElem?
  intro j
  rw [getElem?_map, getElem?_overwrite, getElem?_overwrite, getElem?_map]
  split
  · cases s.entries[j]? <;> rfl
  · rfl

end Store

def Closure.rename (ρ : Renaming) (f : Closure) : Closure :=
  { f with
    name := ρ.onFunctions f.name
    parameters := f.parameters.map ρ.onVariables
    body := Stmt.renameAll ρ f.body }

namespace Context

/-- The context with the names in its stores changed. -/
def rename (ρ : Renaming) (c : Context) : Context :=
  { c with
    «variables» := c.variables.map (Option.map ρ.onFunctions) (Bindings.rename ρ.onVariables)
    functions := c.functions.map (fun _ => ()) fun b =>
      (b.map (Closure.rename ρ)).rename ρ.onFunctions }

variable {c : Context}

theorem mem_functions_rename {i : Nat} {t : Entry Unit Closure}
    (ht : (c.rename ρ).functions.entries[i]? = some t) {entry : Name × Closure}
    (hentry : entry ∈ t.bindings.entries) :
    ∃ t₀ : Entry Unit Closure, c.functions.entries[i]? = some t₀ ∧
      ∃ entry₀ ∈ t₀.bindings.entries,
        entry = (ρ.onFunctions entry₀.1, entry₀.2.rename ρ) := by
  rw [rename, Store.getElem?_map] at ht
  obtain ⟨t₀, ht₀, rfl⟩ := Option.map_eq_some_iff.mp ht
  obtain ⟨entry₁, hentry₁, rfl⟩ := List.mem_map.mp hentry
  obtain ⟨entry₀, hentry₀, rfl⟩ := List.mem_map.mp hentry₁
  exact ⟨t₀, ht₀, entry₀, hentry₀, rfl⟩

theorem Aligned.rename (hc : c.Aligned) (ρ : Renaming) : (c.rename ρ).Aligned where
  size_eq := by simpa [Context.rename] using hc.size_eq
  table_eq := hc.table_eq
  scope_lt := by simpa [Context.rename] using hc.scope_lt
  parent_eq := by simpa [Context.rename] using hc.parent_eq
  grounded := by
    intro i p hp
    exact hc.grounded i p (by simpa [Context.rename] using hp)
  placed := by
    intro i t ht entry hentry
    obtain ⟨t₀, ht₀, entry₀, hentry₀, rfl⟩ := mem_functions_rename ht hentry
    exact hc.placed i t₀ ht₀ entry₀ hentry₀

theorem Mirrored.rename (hc : c.Mirrored) (ρ : Renaming) : (c.rename ρ).Mirrored :=
  { hc.toAligned.rename ρ with
    parent?_eq_none_iff := by simpa [Context.rename] using hc.parent?_eq_none_iff
    named := by
      intro i t ht entry hentry
      obtain ⟨t₀, ht₀, entry₀, hentry₀, rfl⟩ := mem_functions_rename ht hentry
      exact congrArg ρ.onFunctions (hc.named i t₀ ht₀ entry₀ hentry₀) }

theorem frameAt_rename (c : Context) (ρ : Renaming) (i : Nat) :
    (c.rename ρ).frameAt i = (c.frameAt i).rename ρ := by
  simp only [frameAt, rename, Store.getElem?_map]
  cases c.variables.entries[i]? <;> cases c.functions.entries[i]? <;>
    simp [Frame.rename, Bindings.rename, Bindings.map, Bindings.empty, Closure.rename,
      Closure.routine, Routine.rename]

theorem Aligned.frames_rename (hc : c.Aligned) (ρ : Renaming) :
    (c.rename ρ).chain.frames = c.chain.frames.map (Frame.rename ρ) := by
  have hancestors : (c.rename ρ).variables.ancestors c.scope = c.variables.ancestors c.scope :=
    hc.grounded.ancestors_congr fun j _ => by simp [Context.rename]
  have hchain : ∀ c : Context,
      c.chain.frames = (c.scope :: c.variables.ancestors c.scope).map c.frameAt := fun _ => rfl
  rw [hchain, hchain, List.map_map, ← hancestors]
  exact List.map_congr_left fun i _ => c.frameAt_rename ρ i

theorem rename_withFrame (c : Context) (ρ : Renaming) (f : Frame) :
    (c.withFrame f).rename ρ = (c.rename ρ).withFrame (f.rename ρ) := by
  have hfunctions : ((f.functions.map fun r => r.closure c.scope).map (Closure.rename ρ)).rename
      ρ.onFunctions = (f.rename ρ).functions.map fun r => r.closure c.scope := by
    simp [Frame.rename, Bindings.rename, Bindings.map, Closure.rename, Routine.closure,
      Routine.rename]
  simp only [rename, withFrame, Store.map_overwrite, hfunctions]
  rfl

end Context

/-! ## Runs -/

namespace Renaming

/-- A node with other names, on a chain with other names, ends as before. -/
theorem run_rename {c c' : Chain} (h : c'.frames = c.frames.map (Frame.rename ρ))
    (limit headroom : Nat) (n : Node) :
    Lexical.run (Lexical.caller limit headroom) c' (n.rename ρ) =
      ((Lexical.run (Lexical.caller limit headroom) c n).1.mapError (RunError.rename ρ),
        (Lexical.run (Lexical.caller limit headroom) c n).2.rename ρ) := by
  have hcallers := ρ.correspondence.callers limit headroom
  rcases Lexical.Correspondence.agreeIn_run hcallers h n with ⟨_, -, hexcused⟩ | ⟨hresult, hframes⟩
  · exact hexcused.elim
  · exact Prod.ext hresult (List.cons.inj hframes).1

end Renaming

theorem Context.Aligned.ending_rename {c : Context} (hc : c.Aligned) (ρ : Renaming) (n : Node) :
    (c.rename ρ).ending (n.rename ρ) =
      ((c.ending n).1.mapError (RunError.rename ρ), (c.ending n).2.rename ρ) :=
  Renaming.run_rename (hc.frames_rename ρ) _ _ n

theorem Program.outcome_rename (p : Program) (ρ : Renaming) (limits : Limits) :
    (p.rename ρ).outcome limits =
      .ofResult ((Lexical.run (Lexical.caller limits.maxCallDepth limits.maxCallDepth) .root
        (.program p)).1.mapError (RunError.rename ρ)) := by
  have hroot : Chain.root.frames = Chain.root.frames.map (Frame.rename ρ) := rfl
  have hrun := Renaming.run_rename hroot limits.maxCallDepth limits.maxCallDepth (.program p)
  exact congrArg (fun ending => Outcome.ofResult ending.1) hrun

/-- The run failed with an error of this kind. -/
def Outcome.FailsWith (outcome : Outcome) (kind : ErrorKind) : Prop :=
  ∃ e, outcome = .failed e ∧ e.kind = kind

section

variable {α : Type} {result : Except RunError α} {kind : ErrorKind}

theorem mapError_rename_eq_ok_iff {a : α} :
    result.mapError (RunError.rename ρ) = .ok a ↔ result = .ok a := by
  cases result with
  | error cause => exact iff_of_false nofun nofun
  | ok b => exact Iff.rfl

theorem fails_mapError_rename :
    Fails (·.kind = kind) (result.mapError (RunError.rename ρ)) ↔ Fails (·.kind = kind) result := by
  cases result with
  | error cause =>
    change Fails (·.kind = kind) (.error (cause.rename ρ) : Except RunError α) ↔ _
    rw [fails_error, fails_error, RunError.kind_rename]
  | ok a => exact iff_of_false (not_fails_ok a) (not_fails_ok a)

end

theorem Outcome.ofResult_eq_finished_iff {result : Except RunError (Option Value)}
    {v : Option Value} : ofResult result = .finished v ↔ result = .ok v := by
  cases result <;> simp [ofResult]

theorem Outcome.failsWith_ofResult {result : Except RunError (Option Value)} {kind : ErrorKind} :
    (ofResult result).FailsWith kind ↔ Fails (·.kind = kind) result := by
  cases result <;> simp [ofResult, FailsWith, Fails, RunError.report]

/-- Names are only names. With other names for the variables and other names for the
    functions, whether or not they were the same before, a program returns the same and fails
    with the same kind of error. The same is true of every node in a mirrored context whose
    stores are renamed, which is mirrored again, and the context that it leaves is renamed
    too. -/
theorem renaming_changes_no_answer (ρ : Renaming) :
    (∀ (p : Program) (limits : Limits),
      (∀ v, ((p.rename ρ).run limits).outcome = .finished v ↔
        (p.run limits).outcome = .finished v) ∧
      (∀ kind, ((p.rename ρ).run limits).outcome.FailsWith kind ↔
        (p.run limits).outcome.FailsWith kind)) ∧
    (∀ c : Context, c.Mirrored → (c.rename ρ).Mirrored ∧
      ∀ (n : Node) log log', ∃ result s result' s',
        n.run ⟨c, log⟩ = .ok (result, s) ∧
        (n.rename ρ).run ⟨c.rename ρ, log'⟩ = .ok (result', s') ∧
        (∀ v, result' = .ok v ↔ result = .ok v) ∧
        (∀ kind, Fails (·.kind = kind) result' ↔ Fails (·.kind = kind) result) ∧
        s'.context = s.context.rename ρ) := by
  constructor
  · intro p limits
    rw [Program.run, Program.run, Program.outcome_runAfter, Program.outcome_runAfter,
      p.outcome_rename, Program.outcome]
    simp only [Outcome.ofResult_eq_finished_iff, Outcome.failsWith_ofResult,
      mapError_rename_eq_ok_iff, fails_mapError_rename, implies_true, and_self]
  · intro c hc
    refine ⟨hc.rename ρ, fun n log log' => ?_⟩
    obtain ⟨log₁, hrun⟩ := n.run_endsIn hc.toAligned log
    obtain ⟨log₁', hrun'⟩ := (n.rename ρ).run_endsIn (hc.toAligned.rename ρ) log'
    rw [hc.toAligned.ending_rename] at hrun'
    refine ⟨_, _, _, _, hrun, hrun', ?_, ?_, ?_⟩
    · exact fun v => mapError_rename_eq_ok_iff
    · exact fun kind => fails_mapError_rename
    · exact (c.rename_withFrame ρ _).symm

/-- Says of every name what it is the name of. -/
def sampleRenaming : Renaming where
  onVariables x := "variable " ++ x
  onFunctions x := "function " ++ x
  variables_injective _ _ h := (String.append_right_inj _).mp h
  functions_injective _ _ h := (String.append_right_inj _).mp h

/-- Reads a variable that is not there. -/
def sampleAccess : Program :=
  ⟨[.returns (.access (some "x"))]⟩

theorem renaming_changes_no_answer_sample :
    Context.sample.Mirrored ∧
      (∃ s, (sampleBlock.rename sampleRenaming).run ⟨Context.sample.rename sampleRenaming, #[]⟩ =
        .ok (.ok (some (.string "outer")), s)) ∧
      ((sampleAccess.rename sampleRenaming).run ⟨4⟩).outcome.FailsWith .undefinedVariable := by
  have hsample := Context.mirrored_sample
  have hending : (Context.sample.ending sampleBlock).1 = .ok (some (.string "outer")) := by
    rw [Context.ending, Context.chain_sample]
    rfl
  refine ⟨hsample, ?_, ?_⟩
  · obtain ⟨result, s, result', s', hrun, hrun', hok, -⟩ :=
      ((renaming_changes_no_answer sampleRenaming).2 .sample hsample).2 sampleBlock #[] #[]
    have hends := sampleBlock.run_endsIn hsample.toAligned
    have hresult := (Action.Yields.of_run (s := ⟨.sample, #[]⟩) hends hrun).1
    rw [(hok _).mpr (hresult.trans hending)] at hrun'
    exact ⟨s', hrun'⟩
  · have hfails : (sampleAccess.run ⟨4⟩).outcome.FailsWith .undefinedVariable := by
      rw [Program.run, sampleAccess.outcome_runAfter]
      exact ⟨_, rfl, rfl⟩
    exact (((renaming_changes_no_answer sampleRenaming).1 sampleAccess ⟨4⟩).2 _).mpr hfails

end TreeWalk
