-- SUMMARY: Bindings of names that a text does not mention make no difference to it.
import Mathlib.Data.Set.Insert
import TreeWalk.Proofs.Usage

/-! # Names that are not mentioned

A context may hold bindings of variables that the text never reads, and of functions that it
never calls, and neither does what it can come to call. The text may bind such names itself,
declare them, define them or take them as parameters. Whatever these bindings are, and whether
they are there at all, the text ends in the same, and its own bindings are the same afterwards.
-/

namespace TreeWalk

/-- Reads no variable of the one set and calls no function of the other; values may be any. -/
def Usage.without (X G : Set Name) : Usage where
  Reads x := x ∉ X
  Calls name := name ∉ G
  Holds _ := True
  holds_apply _ _ _ := trivial

/-! ## Differences that are not seen -/

namespace Frame.Agrees

variable {U : Usage} {f f' : Frame}

theorem declare_unread (h : f.Agrees U f') {x : Name} (hx : ¬ U.Reads x) (v : Value) :
    (f.declare x v).Agrees U f' := by
  have hvalues : ∀ y, U.Reads y → (f.declare x v).values.get? y = f.values.get? y := by
    intro y hy
    have hne : y ≠ x := fun hyx => hx (hyx ▸ hy)
    exact Bindings.get?_set_of_ne f.values hne v
  exact { h with
    values_eq := fun y hy => (h.values_eq y hy).trans (hvalues y hy).symm
    holds := fun y w hy hw => h.holds y w hy (hvalues y hy ▸ hw) }

theorem define_uncalled (h : f.Agrees U f') {r : Routine} (hr : ¬ U.Calls r.name) :
    (f.define r).Agrees U f' := by
  have hfunctions : ∀ name, U.Calls name →
      (f.define r).functions.get? name = f.functions.get? name := by
    intro name hname
    have hne : name ≠ r.name := fun heq => hr (heq ▸ hname)
    exact Bindings.get?_set_of_ne f.functions hne r
  exact { h with
    functions_eq := fun name hname => (h.functions_eq name hname).trans (hfunctions name hname).symm
    within := fun name r' hname hr' => h.within name r' hname (hfunctions name hname ▸ hr') }

end Frame.Agrees

/-! ## The two runs -/

/-- In two contexts that differ in nothing but bindings of variables in `X` and functions in
    `G`, a node that reads and calls none of these ends in the same, if the functions with other
    names do not read or call them either. The contexts that it leaves again differ in nothing
    but such bindings. -/
theorem unmentioned_names_do_not_matter (X G : Set Name) (c c' : Context) (hc : c.Mirrored)
    (hc' : c'.Mirrored) (h : c.Agrees (.without X G) c') (hbodies : c.Within (.without X G))
    (n : Node) (hn : n.Within (.without X G)) (log log' : Array Event) :
    ∃ result s s', n.run ⟨c, log⟩ = .ok (result, s) ∧ n.run ⟨c', log'⟩ = .ok (result, s') ∧
      s.context.Agrees (.without X G) s'.context := by
  obtain ⟨result, s, s', hrun, hrun', -, hsame, -⟩ :=
    Usage.same_run hc.toAligned hc'.toAligned h hbodies hn log log'
  exact ⟨result, s, s', hrun, hrun', hsame⟩

/-- A root with the function `loop` alone. -/
def sampleBareRoot : Frame :=
  Chain.root.frame.define ⟨"loop", [], [.returns (.call (some "loop") [])]⟩

/-- The same root with a variable `y`, and with a function `g` that reads it. -/
def sampleFullRoot : Frame :=
  (sampleBareRoot.define Context.sampleRoutine).declare "y" (.string "outer")

/-- Binds `y` and `g` itself, but neither reads `y` nor calls `g`. -/
def sampleUnmentioning : Node :=
  .block [
    .functionDefinition (some "g") ["y"] [.returns (.literal (.boolean true))],
    .declaration (some "y") (some (.literal (.boolean false))),
    .returns (.call (some "loop") [])]

theorem unmentioned_names_do_not_matter_sample :
    ∃ c c' : Context, c.Mirrored ∧ c'.Mirrored ∧
      c.variables.get? Store.root "y" = some (.string "outer") ∧
      c'.variables.get? Store.root "y" = none ∧
      ∃ s s', sampleUnmentioning.run ⟨c, #[]⟩ = .ok (.error (.tooDeep "loop" 4), s) ∧
        sampleUnmentioning.run ⟨c', #[]⟩ = .ok (.error (.tooDeep "loop" 4), s') ∧
        s.context.Agrees (.without {"y"} {"g"}) s'.context := by
  have hnew := Context.mirrored_new ⟨4⟩
  have hbare : sampleBareRoot.Named := by
    intro entry hentry
    cases List.mem_singleton.mp hentry
    rfl
  have hloop : (Expr.call (some "loop") []).Within (.without {"y"} {"g"}) := by
    refine .call ?_ fun e he => absurd he List.not_mem_nil
    rintro name ⟨⟩
    exact (by decide : ("loop" : Name) ≠ "g")
  have hagrees : sampleBareRoot.Agrees (.without {"y"} {"g"}) sampleBareRoot := by
    refine (Frame.Agrees.empty none).define fun s hs => ?_
    exact List.mem_singleton.mp hs ▸ .returns hloop
  have hfull : sampleFullRoot.Agrees (.without {"y"} {"g"}) sampleBareRoot :=
    (hagrees.define_uncalled (r := Context.sampleRoutine) fun h => h rfl).declare_unread
      (fun h => h rfl) (.string "outer")
  have hnode : sampleUnmentioning.Within (.without {"y"} {"g"}) := by
    intro s hs
    simp only [List.mem_cons, List.not_mem_nil, or_false] at hs
    rcases hs with rfl | rfl | rfl
    · exact .functionDefinition fun s hs => List.mem_singleton.mp hs ▸ .returns (.literal trivial)
    · refine .declaration ?_
      rintro i ⟨⟩
      exact trivial
    · exact .returns hloop
  have hc := hnew.withFrame (f := sampleFullRoot) (hbare.define Context.sampleRoutine)
  have hc' := hnew.withFrame hbare
  obtain ⟨result, s, s', hrun, hrun', hsame⟩ :=
    unmentioned_names_do_not_matter {"y"} {"g"} _ _ hc hc'
      (Context.Agrees.withFrame hnew.toAligned hnew.toAligned (.refl _ _) hfull rfl rfl)
      ((Context.within_new _ ⟨4⟩).withFrame hnew.toAligned hfull) sampleUnmentioning hnode #[] #[]
  have hresult : result = .error (.tooDeep "loop" 4) := by
    obtain ⟨log, hends⟩ := sampleUnmentioning.run_endsIn hc'.toAligned #[]
    rw [Context.ending, hnew.toAligned.chain_withFrame, Context.chain_new] at hends
    cases hrun'.symm.trans hends
    rfl
  subst hresult
  refine ⟨_, _, hc, hc', ?_, ?_, s, s', hrun, hrun', hsame⟩
  · exact hnew.get?_variables_withFrame _ "y"
  · exact hnew.get?_variables_withFrame _ "y"

end TreeWalk
