-- SUMMARY: What earlier programs left behind changes nothing for a program that runs without it.
import TreeWalk.Proofs.Correspondence
import TreeWalk.Proofs.Simulation

/-! # Leftover state

A context can be used for one program after another. What the earlier ones bound at the root is
still there, and a program may depend on it. But then it does not run on its own: in a fresh
context it ends in the error of a name that means nothing. A program that does not, finds every
name in something that it has bound itself, which is nearer than or in the place of whatever was
left.

So the root frame of the run among leftovers is at every moment the leftover frame, overlaid
with the root frame of the run on its own. All other frames of the two runs are the same.
-/

namespace TreeWalk

/-! ## Overlaying bindings -/

namespace Bindings

variable {α : Type}

/-- The names that are bound, in the order in which they were first bound. -/
def names (b : Bindings α) : List Name :=
  b.entries.map Prod.fst

/-- Binds what the second bindings bind on top of the first ones. -/
def overlay (former later : Bindings α) : Bindings α :=
  later.entries.foldl (fun b entry => b.set entry.1 entry.2) former

theorem get?_cons (entry : Name × α) (rest : List (Name × α)) (x : Name) :
    get? ⟨entry :: rest⟩ x = if x = entry.1 then some entry.2 else get? ⟨rest⟩ x := by
  rw [get?, List.lookup_cons]
  by_cases h : x = entry.1
  · simp [h]
  · simp [beq_eq_false_iff_ne.mpr h, h, get?]

theorem get?_eq_none_of_notMem {b : Bindings α} {x : Name} (h : x ∉ b.names) :
    b.get? x = none := by
  obtain ⟨entries⟩ := b
  induction entries with
  | nil => rfl
  | cons entry rest ih =>
    rw [names, List.map_cons, List.mem_cons, not_or] at h
    rw [get?_cons, if_neg h.1, ih h.2]

theorem get?_of_mem {b : Bindings α} (h : b.names.Nodup) {entry : Name × α}
    (hentry : entry ∈ b.entries) : b.get? entry.1 = some entry.2 := by
  obtain ⟨entries⟩ := b
  induction entries with
  | nil => cases hentry
  | cons first rest ih =>
    obtain ⟨hfirst, hrest⟩ := List.nodup_cons.mp h
    rw [get?_cons]
    rcases List.mem_cons.mp hentry with rfl | hentry
    · exact if_pos rfl
    · have hne : entry.1 ≠ first.1 := fun heq => hfirst (heq ▸ List.mem_map_of_mem hentry)
      rw [if_neg hne, ih hrest hentry]

theorem names_set (b : Bindings α) (x : Name) (v : α) :
    (b.set x v).names = if x ∈ b.names then b.names else b.names ++ [x] := by
  obtain ⟨entries⟩ := b
  simp only [names, set]
  induction entries with
  | nil => simp [assign]
  | cons entry rest ih =>
    obtain ⟨y, w⟩ := entry
    by_cases hy : y = x
    · simp [assign, hy]
    · rw [assign, if_neg hy, List.map_cons, ih]
      by_cases hx : x ∈ rest.map Prod.fst <;> simp [hx, Ne.symm hy]

theorem mem_names_set {b : Bindings α} {x y : Name} {v : α} :
    y ∈ (b.set x v).names ↔ y = x ∨ y ∈ b.names := by
  rw [names_set]
  split
  · simp_all
  · simp [or_comm]

theorem nodup_set {b : Bindings α} (h : b.names.Nodup) (x : Name) (v : α) :
    (b.set x v).names.Nodup := by
  rw [names_set]
  split
  · exact h
  · next hx => simpa [List.nodup_append, h] using fun y hy => ne_of_mem_of_not_mem hy hx

theorem set_of_get? {b : Bindings α} {x : Name} {v : α} (h : b.get? x = some v) :
    b.set x v = b := by
  obtain ⟨entries⟩ := b
  simp only [get?, set, Bindings.mk.injEq] at h ⊢
  induction entries with
  | nil => cases h
  | cons entry rest ih =>
    obtain ⟨y, w⟩ := entry
    by_cases hy : y = x
    · subst hy
      simp_all [assign]
    · rw [List.lookup_cons, beq_eq_false_iff_ne.mpr (Ne.symm hy)] at h
      rw [assign, if_neg hy, ih h]

theorem set_set_self (b : Bindings α) (x : Name) (u v : α) : (b.set x u).set x v = b.set x v := by
  obtain ⟨entries⟩ := b
  simp only [set, Bindings.mk.injEq]
  induction entries with
  | nil => simp [assign]
  | cons entry rest ih =>
    obtain ⟨y, w⟩ := entry
    by_cases hy : y = x
    · simp [assign, hy]
    · simp [assign, hy, ih]

/-- A name that is bound already stays where it is, so others may be bound before. -/
theorem set_comm {b : Bindings α} {x y : Name} (hx : x ∈ b.names) (hne : x ≠ y) (v w : α) :
    (b.set y w).set x v = (b.set x v).set y w := by
  obtain ⟨entries⟩ := b
  simp only [names, set, Bindings.mk.injEq] at hx ⊢
  induction entries with
  | nil => cases hx
  | cons entry rest ih =>
    obtain ⟨z, u⟩ := entry
    by_cases hy : z = y
    · subst hy
      simp [assign, hne.symm]
    · by_cases hz : z = x
      · subst hz
        simp [assign, hne]
      · have hrest : x ∈ rest.map Prod.fst := by simpa [Ne.symm hz] using hx
        simp [assign, hy, hz, ih hrest]

/-! ### What an overlay binds -/

theorem overlay_cons (b : Bindings α) (entry : Name × α) (rest : List (Name × α)) :
    b.overlay ⟨entry :: rest⟩ = (b.set entry.1 entry.2).overlay ⟨rest⟩ :=
  rfl

theorem get?_overlay (b : Bindings α) {later : Bindings α} (h : later.names.Nodup) (x : Name) :
    (b.overlay later).get? x = (later.get? x).or (b.get? x) := by
  obtain ⟨entries⟩ := later
  induction entries generalizing b with
  | nil => rfl
  | cons entry rest ih =>
    obtain ⟨hentry, hrest⟩ := List.nodup_cons.mp h
    rw [overlay_cons, ih _ hrest, get?_set, get?_cons]
    split
    · next hx =>
      subst hx
      rw [get?_eq_none_of_notMem hentry, Option.none_or, Option.some_or]
    · rfl

theorem set_overlay {b later : Bindings α} {x : Name} (hb : x ∈ b.names) (hx : x ∉ later.names)
    (v : α) : (b.overlay later).set x v = (b.set x v).overlay later := by
  obtain ⟨entries⟩ := later
  induction entries generalizing b with
  | nil => rfl
  | cons entry rest ih =>
    obtain ⟨hne, hrest⟩ := not_or.mp (mt List.mem_cons.mpr hx)
    rw [overlay_cons, overlay_cons, ih (mem_names_set.mpr (.inr hb)) hrest, set_comm hb hne]

/-- Binding a name in what is laid over is binding it in the overlay. -/
theorem overlay_set (b : Bindings α) {later : Bindings α} (h : later.names.Nodup) (x : Name)
    (v : α) : b.overlay (later.set x v) = (b.overlay later).set x v := by
  obtain ⟨entries⟩ := later
  induction entries generalizing b with
  | nil => rfl
  | cons entry rest ih =>
    obtain ⟨y, w⟩ := entry
    obtain ⟨hy, hrest⟩ := List.nodup_cons.mp h
    by_cases hyx : y = x
    · subst hyx
      have hset : set ⟨(y, w) :: rest⟩ y v = ⟨(y, v) :: rest⟩ := by simp [set, assign]
      rw [hset, overlay_cons, overlay_cons, set_overlay (mem_names_set.mpr (.inl rfl)) hy,
        set_set_self]
    · have hset : set ⟨(y, w) :: rest⟩ x v = ⟨(y, w) :: (set ⟨rest⟩ x v).entries⟩ := by
        simp [set, assign, hyx]
      rw [hset, overlay_cons, overlay_cons]
      exact ih _ hrest

theorem overlay_of_forall {b later : Bindings α}
    (h : ∀ entry ∈ later.entries, b.get? entry.1 = some entry.2) : b.overlay later = b := by
  obtain ⟨entries⟩ := later
  induction entries with
  | nil => rfl
  | cons entry rest ih =>
    rw [overlay_cons, set_of_get? (h entry List.mem_cons_self)]
    exact ih fun entry hentry => h entry (List.mem_cons_of_mem _ hentry)

theorem overlay_self {b : Bindings α} (h : b.names.Nodup) : b.overlay b = b :=
  overlay_of_forall fun _ => get?_of_mem h

end Bindings

/-! ## Overlaying frames -/

namespace Frame

/-- Nothing is bound twice. -/
structure Unrepeated (f : Frame) : Prop where
  values : f.values.names.Nodup
  functions : f.functions.names.Nodup

/-- A frame with what another one binds on top. -/
def overlay (former later : Frame) : Frame :=
  { owner := former.owner
    values := former.values.overlay later.values
    functions := former.functions.overlay later.functions }

variable {f : Frame}

theorem Unrepeated.declare (hf : f.Unrepeated) (x : Name) (v : Value) :
    (f.declare x v).Unrepeated :=
  { hf with values := Bindings.nodup_set hf.values x v }

theorem Unrepeated.define (hf : f.Unrepeated) (r : Routine) : (f.define r).Unrepeated :=
  { hf with functions := Bindings.nodup_set hf.functions r.name r }

theorem overlay_declare (former : Frame) (hf : f.Unrepeated) (x : Name) (v : Value) :
    former.overlay (f.declare x v) = (former.overlay f).declare x v := by
  simp only [overlay, Frame.declare, Bindings.overlay_set _ hf.values]

theorem overlay_define (former : Frame) (hf : f.Unrepeated) (r : Routine) :
    former.overlay (f.define r) = (former.overlay f).define r := by
  simp only [overlay, Frame.define, Bindings.overlay_set _ hf.functions]

theorem overlay_self (hf : f.Unrepeated) : f.overlay f = f := by
  rw [overlay, Bindings.overlay_self hf.values, Bindings.overlay_self hf.functions]

end Frame

/-! ## The two runs -/

/-- The frames of a run on its own, and those of the run of the same program among leftovers:
    only the root frames differ. -/
inductive Leftover (leftover : Frame) : List Frame → List Frame → Prop
  | root {f : Frame} (hf : f.Unrepeated) : Leftover leftover [f] [leftover.overlay f]
  | call (f : Frame) {fs fs' : List Frame} (h : Leftover leftover fs fs') :
      Leftover leftover (f :: fs) (f :: fs')

namespace Leftover

variable {leftover : Frame} {fs fs' : List Frame}

theorem lookup_some (h : Leftover leftover fs fs') {x : Name} {v : Value}
    (hx : fs.findSome? (fun f => f.values.get? x) = some v) :
    fs'.findSome? (fun f => f.values.get? x) = some v := by
  induction h with
  | @root f hf =>
    have hv : f.values.get? x = some v := by simpa using hx
    simp [Frame.overlay, Bindings.get?_overlay _ hf.values, hv]
  | call f h ih =>
    rw [List.findSome?_cons] at hx ⊢
    split
    · next w hw =>
      rw [hw] at hx
      exact hx
    · next hw =>
      rw [hw] at hx
      exact ih hx

theorem definer?_some (h : Leftover leftover fs fs') {name : Name} {r : Routine}
    {outer : List Frame} (hr : definer? name fs = some (r, outer)) :
    ∃ outer', definer? name fs' = some (r, outer') ∧ Leftover leftover outer outer' := by
  induction h with
  | @root f hf =>
    rw [definer?] at hr
    split at hr
    · next hfound =>
      cases hr
      refine ⟨[leftover.overlay f], ?_, .root hf⟩
      simp [definer?, Frame.overlay, Bindings.get?_overlay _ hf.functions, hfound]
    · cases hr
  | @call f fs fs' h ih =>
    rw [definer?] at hr
    split at hr
    · next hfound =>
      cases hr
      refine ⟨f :: fs', ?_, .call f h⟩
      rw [definer?, hfound]
    · next hfound =>
      rw [definer?, hfound]
      exact ih hr

theorem declare {f f' : Frame} {outer outer' : List Frame}
    (h : Leftover leftover (f :: outer) (f' :: outer')) (x : Name) (v : Value) :
    Leftover leftover (f.declare x v :: outer) (f'.declare x v :: outer') := by
  cases h with
  | root hf => exact Frame.overlay_declare leftover hf x v ▸ .root (hf.declare x v)
  | call f h => exact .call _ h

theorem define {f f' : Frame} {outer outer' : List Frame}
    (h : Leftover leftover (f :: outer) (f' :: outer')) (r : Routine) :
    Leftover leftover (f.define r :: outer) (f'.define r :: outer') := by
  cases h with
  | root hf => exact Frame.overlay_define leftover hf r ▸ .root (hf.define r)
  | call f h => exact .call _ h

end Leftover

/-- The error of a name that means nothing. -/
def RunError.IsUndefined (cause : RunError) : Prop :=
  cause.kind = .undefinedVariable ∨ cause.kind = .undefinedFunction

/-- Among leftovers a run does as on its own, unless it misses a name there. -/
def Leftover.correspondence (leftover : Frame) : Lexical.Correspondence where
  names := .id
  Excused := RunError.IsUndefined
  Frames := Leftover leftover
  lookup_some h _ _ hx := Leftover.lookup_some h hx
  lookup_none _ _ _ := .inl (.inl rfl)
  definer?_some h _ r _ hr := by
    rw [r.rename_id]
    exact Leftover.definer?_some h hr
  definer?_none _ _ _ := .inl (.inr rfl)
  frames_declare h x v := h.declare x v
  frames_define h r := by
    rw [r.rename_id]
    exact h.define r
  frames_ofCall h r vs := by
    rw [r.rename_id]
    exact .call _ h

theorem mapError_rename_id {α : Type} (result : Except RunError α) :
    result.mapError (RunError.rename .id) = result := by
  cases result with
  | error cause => exact congrArg Except.error cause.rename_id
  | ok a => rfl

/-- What a program ends in on its own, and the root frame that it leaves. -/
def Program.ending (p : Program) (limits : Limits) : Lexical.Ending :=
  Lexical.run (Lexical.caller limits.maxCallDepth limits.maxCallDepth) .root (.program p)

theorem Program.named_ending (p : Program) (limits : Limits) : (p.ending limits).2.Named := by
  have hroot : Chain.root.frame.Named := fun _ hentry => absurd hentry List.not_mem_nil
  exact Lexical.named_run _ hroot (.program p)

/-- A program that does not miss a name on its own ends in the same among leftovers, and its
    bindings are laid over them. -/
theorem Program.run_leftover {p : Program} {limits : Limits}
    (hdefined : ¬ Fails RunError.IsUndefined (p.ending limits).1) (leftover : Frame) :
    (p.ending limits).2.Unrepeated ∧
      Lexical.run (Lexical.caller limits.maxCallDepth limits.maxCallDepth) ⟨leftover, []⟩
        (.program p) = ((p.ending limits).1, leftover.overlay (p.ending limits).2) := by
  have hroot : (Leftover.correspondence leftover).Frames Chain.root.frames
      (Chain.frames ⟨leftover, []⟩) := Leftover.root ⟨List.nodup_nil, List.nodup_nil⟩
  have hsame : Node.rename (Leftover.correspondence leftover).names (.program p) = .program p :=
    congrArg Node.program p.rename_id
  have hagree := Lexical.Correspondence.agreeIn_run
    (Lexical.Correspondence.callers _ limits.maxCallDepth limits.maxCallDepth) hroot (.program p)
  rw [hsame] at hagree
  obtain ⟨hresult, hframes⟩ := hagree.resolve_left hdefined
  unfold ending
  generalize Lexical.run _ .root (.program p) = ending at hresult hframes ⊢
  generalize Lexical.run _ ⟨leftover, []⟩ (.program p) = ending' at hresult hframes ⊢
  obtain ⟨result, f⟩ := ending
  obtain ⟨result', f'⟩ := ending'
  cases hframes with
  | root hf => exact ⟨hf, Prod.ext (hresult.trans (mapError_rename_id result)) rfl⟩
  | call f h => nomatch h

/-! ## Contexts at the root -/

namespace Context

variable {c : Context}

theorem Mirrored.chain_of_root (hc : c.Mirrored) (hscope : c.scope = Store.root) :
    c.chain = ⟨c.chain.frame, []⟩ := by
  have hparent : c.variables.parent? c.scope = none :=
    (hc.parent?_eq_none_iff c.scope hc.scope_lt).mpr hscope
  rw [chain, Store.ancestors_of_root hparent]
  rfl

theorem get?_variables_new (limits : Limits) (f : Frame) (x : Name) :
    ((Context.new limits).withFrame f).variables.get? Store.root x = f.values.get? x :=
  (mirrored_new limits).get?_variables_withFrame f x

theorem get?_functions_new (limits : Limits) (f : Frame) (x : Name) :
    ((Context.new limits).withFrame f).functions.get? Store.root x =
      (f.functions.get? x).map fun r => r.closure Store.root :=
  (mirrored_new limits).get?_functions_withFrame f x

/-- Between programs, a context is as good as its root frame. -/
theorem Mirrored.execute_of_root (hc : c.Mirrored) (hscope : c.scope = Store.root)
    (hdepth : c.depth = 0) (p : Program) (log : Array Event) :
    ∃ log', p.execute ⟨c, log⟩ =
      .ok ((Lexical.run (Lexical.caller c.limits.maxCallDepth c.limits.maxCallDepth)
          ⟨c.chain.frame, []⟩ (.program p)).1,
        ⟨c.withFrame (Lexical.run (Lexical.caller c.limits.maxCallDepth c.limits.maxCallDepth)
          ⟨c.chain.frame, []⟩ (.program p)).2, log'⟩) := by
  have hheadroom : c.headroom = c.limits.maxCallDepth := by rw [headroom, hdepth, Nat.sub_zero]
  have hends := (Node.program p).run_endsIn hc.toAligned log
  rw [ending, caller, hheadroom, hc.chain_of_root hscope] at hends
  exact hends

theorem execute_new (p : Program) (limits : Limits) (log : Array Event) :
    ∃ log', p.execute ⟨.new limits, log⟩ =
      .ok ((p.ending limits).1, ⟨(Context.new limits).withFrame (p.ending limits).2, log'⟩) := by
  have hexecute := (mirrored_new limits).execute_of_root rfl rfl p log
  rw [chain_new] at hexecute
  exact hexecute

theorem Mirrored.execute_leftover (hc : c.Mirrored) (hscope : c.scope = Store.root)
    (hdepth : c.depth = 0) {p : Program}
    (hdefined : ¬ Fails RunError.IsUndefined (p.ending c.limits).1) (log : Array Event) :
    ∃ log', p.execute ⟨c, log⟩ =
      .ok ((p.ending c.limits).1,
        ⟨c.withFrame (c.chain.frame.overlay (p.ending c.limits).2), log'⟩) := by
  obtain ⟨-, hrun⟩ := Program.run_leftover hdefined c.chain.frame
  have hexecute := hc.execute_of_root hscope hdepth p log
  rw [hrun] at hexecute
  exact hexecute

end Context

/-- Leftovers change nothing for a program that runs on its own, in a fresh context, without
    missing a name. In a context that is back at its root and has the same limits it ends in
    the same, the root bindings that it made are made with the same values and definitions, and
    the others are those of before. Run a second time in the context that it left, it ends in
    the same again and leaves that context as it is. -/
theorem leftover_changes_no_answer (p : Program) (limits : Limits) (log : Array Event) :
    ∃ result s, p.execute ⟨.new limits, log⟩ = .ok (result, s) ∧
      (¬ Fails RunError.IsUndefined result →
        (∀ c : Context, c.Mirrored → c.scope = Store.root → c.depth = 0 → c.limits = limits →
          ∀ log', ∃ s', p.execute ⟨c, log'⟩ = .ok (result, s') ∧
            (∀ x, s'.context.variables.get? Store.root x =
              (s.context.variables.get? Store.root x).or (c.variables.get? Store.root x)) ∧
            (∀ name, s'.context.functions.get? Store.root name =
              (s.context.functions.get? Store.root name).or
                (c.functions.get? Store.root name))) ∧
        (∀ log', ∃ s', p.execute ⟨s.context, log'⟩ = .ok (result, s') ∧
          s'.context = s.context)) := by
  have hnew := Context.mirrored_new limits
  obtain ⟨log₁, hfirst⟩ := Context.execute_new p limits log
  refine ⟨_, _, hfirst, fun hdefined => ⟨?_, ?_⟩⟩
  · rintro c hc hscope hdepth rfl log'
    obtain ⟨hunrepeated, -⟩ := Program.run_leftover hdefined c.chain.frame
    obtain ⟨log₂, hsecond⟩ := hc.execute_leftover hscope hdepth hdefined log'
    refine ⟨_, hsecond, fun x => ?_, fun name => ?_⟩
    · dsimp only
      rw [Context.get?_variables_new, ← hscope, hc.get?_variables_withFrame, hc.get?_variables]
      exact Bindings.get?_overlay _ hunrepeated.values x
    · dsimp only
      rw [Context.get?_functions_new, ← hscope, hc.get?_functions_withFrame, hc.get?_functions,
        ← Option.map_or]
      exact congrArg _ (Bindings.get?_overlay _ hunrepeated.functions name)
  · intro log'
    have hleft := hnew.withFrame (p.named_ending limits)
    have hframe : ((Context.new limits).withFrame (p.ending limits).2).chain.frame =
        (p.ending limits).2 := by rw [hnew.chain_withFrame]
    obtain ⟨hunrepeated, -⟩ := Program.run_leftover hdefined (p.ending limits).2
    obtain ⟨log₂, hsecond⟩ := hleft.execute_leftover rfl rfl hdefined log'
    refine ⟨_, hsecond, ?_⟩
    rw [hframe, Context.withFrame_withFrame]
    exact congrArg (Context.withFrame _) (Frame.overlay_self hunrepeated)

/-- Leaves a function and two variables behind. -/
def sampleEarlier : Program :=
  ⟨[.functionDefinition (some "g") [] [.returns (.access (some "y"))],
    .conditional [.literal (.boolean true)] [
      .declaration (some "y") (some (.literal (.string "left over"))),
      .declaration (some "z") (some (.literal (.string "left over")))]]⟩

/-- Defines the function otherwise, and declares one of the variables again. -/
def sampleLater : Program :=
  ⟨[.functionDefinition (some "g") ["x"] [.returns (.access (some "x"))],
    .conditional [.literal (.boolean true)] [
      .declaration (some "y") (some (.literal (.string "new"))),
      .returns (.call (some "g") [.access (some "y")])]]⟩

theorem leftover_changes_no_answer_sample :
    ∃ c : Context, c.Mirrored ∧ c.variables.get? Store.root "y" = some (.string "left over") ∧
      ∃ s, sampleLater.execute ⟨c, #[]⟩ = .ok (.ok (some (.string "new")), s) ∧
        s.context.variables.get? Store.root "y" = some (.string "new") ∧
        s.context.variables.get? Store.root "z" = some (.string "left over") := by
  have hc := (Context.mirrored_new ⟨4⟩).withFrame (sampleEarlier.named_ending ⟨4⟩)
  have hresult : (sampleLater.ending ⟨4⟩).1 = .ok (some (.string "new")) := rfl
  have hdefined : ¬ Fails RunError.IsUndefined (sampleLater.ending ⟨4⟩).1 := by
    rintro ⟨cause, hcause, -⟩
    cases hresult.symm.trans hcause
  obtain ⟨result, s, hfirst, hsame⟩ := leftover_changes_no_answer sampleLater ⟨4⟩ #[]
  obtain ⟨log, hown⟩ := Context.execute_new sampleLater ⟨4⟩ #[]
  cases hfirst.symm.trans hown
  obtain ⟨s', hsecond, hvariables, -⟩ := (hsame hdefined).1 _ hc rfl rfl rfl #[]
  refine ⟨_, hc, Context.get?_variables_new ⟨4⟩ _ "y", s', hresult ▸ hsecond, ?_, ?_⟩
  · rw [hvariables, Context.get?_variables_new]
    rfl
  · rw [hvariables, Context.get?_variables_new, Context.get?_variables_new]
    rfl

end TreeWalk
