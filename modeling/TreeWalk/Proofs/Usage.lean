-- SUMMARY: Two runs of a text that agree on the names the text uses, and what kind of values such runs pass around.
import Mathlib.Data.List.Forall2
import TreeWalk.Proofs.Footprint

/-! # Usage

What a run does is decided by the names that its text reads and calls and by the values that it
finds there. A `Usage` says which names these are, and what is known of the values. Text within a
usage, and the bodies of the functions that it can come to call, may bind any names: it is what
they read that counts.

Frames that agree as far as a usage goes lead to the same results (`Usage.same_run`), and what
was known of the values still holds of those that are returned or left behind. The second run
may be the first one once more: then this is an invariant of the values of a run.
-/

namespace TreeWalk

variable {α β : Type}

/-- Which names a text reads and calls, and what holds of the values under them. -/
structure Usage where
  Reads : Name → Prop
  Calls : Name → Prop
  Holds : Value → Prop
  holds_apply : ∀ {operator : Operator} {l r v : Value}, Holds l → Holds r →
    operator.apply l r = .ok v → Holds v

/-! ## Text -/

inductive Expr.Within (U : Usage) : Expr → Prop
  | literal {v : Value} (hv : U.Holds v) : Within U (.literal v)
  | parameter {v : Value} (hv : U.Holds v) : Within U (.parameter v)
  | access {name : Option Name} (hname : ∀ x ∈ name, U.Reads x) : Within U (.access name)
  | call {name : Option Name} {arguments : List Expr} (hname : ∀ f ∈ name, U.Calls f)
      (h : ∀ e ∈ arguments, Within U e) : Within U (.call name arguments)
  | builtIn {operators : List Operator} {operands : List Expr} (h : ∀ e ∈ operands, Within U e) :
      Within U (.builtIn operators operands)
  | malformed {count : Nat} : Within U (.malformed count)
  | invalid {tag : Tag} : Within U (.invalid tag)

def Initializer.Within (U : Usage) : Initializer → Prop
  | .literal v => U.Holds v
  | .expression e => e.Within U

inductive Stmt.Within (U : Usage) : Stmt → Prop
  | functionDefinition {name : Option Name} {parameters : List Name} {body : List Stmt}
      (h : ∀ s ∈ body, Within U s) : Within U (.functionDefinition name parameters body)
  | conditional {conditions : List Expr} {body : List Stmt}
      (hconditions : ∀ e ∈ conditions, e.Within U) (h : ∀ s ∈ body, Within U s) :
      Within U (.conditional conditions body)
  | returns {e : Expr} (h : e.Within U) : Within U (.returns e)
  | declaration {name : Option Name} {value : Option Initializer}
      (h : ∀ i ∈ value, i.Within U) : Within U (.declaration name value)
  | expression {e : Expr} (h : e.Within U) : Within U (.expression e)
  | malformed {count : Nat} : Within U (.malformed count)
  | invalid {tag : Tag} : Within U (.invalid tag)

def Item.Within (U : Usage) : Item → Prop
  | .functionDefinition _ _ body => ∀ s ∈ body, s.Within U
  | .conditional conditions body => (∀ e ∈ conditions, e.Within U) ∧ ∀ s ∈ body, s.Within U
  | .returns e => e.Within U
  | .invalid _ => True

def Program.Within (U : Usage) (p : Program) : Prop :=
  ∀ item ∈ p.items, item.Within U

def Node.Within (U : Usage) : Node → Prop
  | .expression e => e.Within U
  | .call name arguments => (∀ f ∈ name, U.Calls f) ∧ ∀ e ∈ arguments, e.Within U
  | .statement s => s.Within U
  | .block body => ∀ s ∈ body, s.Within U
  | .conditional conditions body => (∀ e ∈ conditions, e.Within U) ∧ ∀ s ∈ body, s.Within U
  | .declaration _ value => ∀ i ∈ value, i.Within U
  | .definition _ _ body => ∀ s ∈ body, s.Within U
  | .program p => p.Within U

/-! ## Frames -/

/-- The frames bind the same under the names that are used, to values of the known kind and to
    functions with bodies within the usage. -/
structure Frame.Agrees (U : Usage) (f f' : Frame) : Prop where
  owner_eq : f'.owner = f.owner
  values_eq : ∀ x, U.Reads x → f'.values.get? x = f.values.get? x
  functions_eq : ∀ name, U.Calls name → f'.functions.get? name = f.functions.get? name
  holds : ∀ x v, U.Reads x → f.values.get? x = some v → U.Holds v
  within : ∀ name r, U.Calls name → f.functions.get? name = some r → ∀ s ∈ r.body, s.Within U

namespace Frame.Agrees

variable {U : Usage} {f f' : Frame}

theorem empty (owner : Option Name) :
    Frame.Agrees U ⟨owner, .empty, .empty⟩ ⟨owner, .empty, .empty⟩ where
  owner_eq := rfl
  values_eq _ _ := rfl
  functions_eq _ _ := rfl
  holds _ _ _ h := by cases h
  within _ _ _ h := by cases h

theorem declare (h : f.Agrees U f') (x : Name) {v : Value} (hv : U.Holds v) :
    (f.declare x v).Agrees U (f'.declare x v) :=
  { h with
    values_eq := by
      intro y hy
      simp only [Frame.declare, Bindings.get?_set, h.values_eq y hy]
    holds := by
      intro y w hy hw
      rw [Frame.declare, Bindings.get?_set] at hw
      split at hw
      · exact Option.some.inj hw ▸ hv
      · exact h.holds y w hy hw }

theorem define (h : f.Agrees U f') {r : Routine} (hr : ∀ s ∈ r.body, s.Within U) :
    (f.define r).Agrees U (f'.define r) :=
  { h with
    functions_eq := by
      intro name hname
      simp only [Frame.define, Bindings.get?_set, h.functions_eq name hname]
    within := by
      intro name r' hname hr'
      rw [Frame.define, Bindings.get?_set] at hr'
      split at hr'
      · exact Option.some.inj hr' ▸ hr
      · exact h.within name r' hname hr' }

theorem declareAll (h : f.Agrees U f') (xs : List Name) {vs : List Value}
    (hvs : ∀ v ∈ vs, U.Holds v) : (f.declareAll xs vs).Agrees U (f'.declareAll xs vs) := by
  induction xs generalizing f f' vs with
  | nil => exact h
  | cons x xs ih =>
    cases vs with
    | nil => exact h
    | cons v vs =>
      obtain ⟨hv, hvs⟩ := List.forall_mem_cons.mp hvs
      exact ih (h.declare x hv) hvs

theorem ofCall (r : Routine) {vs : List Value} (hvs : ∀ v ∈ vs, U.Holds v) :
    (Frame.ofCall r vs).Agrees U (Frame.ofCall r vs) :=
  (empty (some r.name)).declareAll r.parameters hvs

end Frame.Agrees

namespace Usage

variable {U : Usage}

/-- The frames of the two runs, one by one. -/
abbrev Frames (U : Usage) (fs fs' : List Frame) : Prop :=
  List.Forall₂ (Frame.Agrees U) fs fs'

theorem lookup_agrees {c c' : Chain} (h : U.Frames c.frames c'.frames) {x : Name}
    (hx : U.Reads x) :
    c'.lookup x = c.lookup x ∧ ∀ v, c.lookup x = some v → U.Holds v := by
  unfold Chain.lookup
  generalize c.frames = fs at h ⊢
  generalize c'.frames = fs' at h ⊢
  induction h with
  | nil => exact ⟨rfl, fun v hv => by cases hv⟩
  | @cons f f' fs fs' hf _ ih =>
    rw [List.findSome?_cons, List.findSome?_cons, hf.values_eq x hx]
    cases hv : f.values.get? x with
    | some v => exact ⟨rfl, fun w hw => Option.some.inj hw ▸ hf.holds x v hx hv⟩
    | none => exact ih

/-- A function that is used is found in both runs or in none. -/
theorem definer?_agrees {fs fs' : List Frame} (h : U.Frames fs fs') {name : Name}
    (hname : U.Calls name) :
    (definer? name fs = none ∧ definer? name fs' = none) ∨
      ∃ r outer outer', definer? name fs = some (r, outer) ∧
        definer? name fs' = some (r, outer') ∧ (∀ s ∈ r.body, s.Within U) ∧
        U.Frames outer outer' := by
  induction h with
  | nil => exact .inl ⟨rfl, rfl⟩
  | @cons f f' fs fs' hf hfs ih =>
    rw [definer?, definer?, hf.functions_eq name hname]
    cases hr : f.functions.get? name with
    | some r => exact .inr ⟨r, _, _, rfl, rfl, hf.within name r hname hr, .cons hf hfs⟩
    | none => exact ih

/-! ## Results -/

/-- The two runs end in the same error, or in one value that this holds of. -/
inductive Same (P : α → Prop) : Except RunError α → Except RunError α → Prop
  | error (cause : RunError) : Same P (.error cause) (.error cause)
  | ok {a : α} (ha : P a) : Same P (.ok a) (.ok a)

namespace Same

variable {P : α → Prop} {Q : β → Prop} {result result' : Except RunError α}

theorem of_eq (h : ∀ a, result = .ok a → P a) : Same P result result := by
  cases result with
  | error cause => exact .error cause
  | ok a => exact .ok (h a rfl)

theorem eq (h : Same P result result') : result' = result := by
  cases h <;> rfl

theorem holds (h : Same P result result') {a : α} (ha : result = .ok a) : P a := by
  cases h with
  | error => cases ha
  | ok h => exact Except.ok.inj ha ▸ h

theorem bind {next next' : α → Except RunError β} (h : Same P result result')
    (hnext : ∀ a, P a → Same Q (next a) (next' a)) :
    Same Q (result >>= next) (result' >>= next') := by
  cases h with
  | error cause => exact .error cause
  | ok ha => exact hnext _ ha

theorem map {f : α → β} (h : Same P result result') (hf : ∀ a, P a → Q (f a)) :
    Same Q (result.map f) (result'.map f) := by
  cases h with
  | error cause => exact .error cause
  | ok ha => exact .ok (hf _ ha)

end Same

/-- What a statement may return. -/
def Returns (U : Usage) (o : Option Value) : Prop :=
  ∀ v ∈ o, U.Holds v

theorem returns_none : U.Returns none :=
  fun _ h => by cases h

theorem returns_some {v : Value} (hv : U.Holds v) : U.Returns (some v) :=
  fun _ h => Option.some.inj h ▸ hv

/-- The two runs end in the same, and the frames agree that they leave. -/
structure SameIn (U : Usage) (ending ending' : Lexical.Ending) : Prop where
  result : Same U.Returns ending.1 ending'.1
  frame : ending.2.Agrees U ending'.2

theorem SameIn.andThen {ending ending' : Lexical.Ending} (h : U.SameIn ending ending')
    {following following' : Frame → Lexical.Ending}
    (hfollowing : ∀ f f', f.Agrees U f' → U.SameIn (following f) (following' f')) :
    U.SameIn (ending.andThen following) (ending'.andThen following') := by
  obtain ⟨result, f⟩ := ending
  obtain ⟨result', f'⟩ := ending'
  obtain ⟨hresult, hframe⟩ := h
  dsimp only at hresult hframe
  cases hresult with
  | error cause => exact ⟨.error cause, hframe⟩
  | @ok o ho =>
    cases o with
    | none => exact hfollowing f f' hframe
    | some v => exact ⟨.ok ho, hframe⟩

/-! ## Syntax -/

/-- Given bodies within the usage, frames that agree and arguments that are the same, the
    callers give results that are the same. -/
def Callers (U : Usage) (caller caller' : Lexical.Caller) : Prop :=
  ∀ (r : Routine) {outer outer' : List Frame}, (∀ s ∈ r.body, s.Within U) →
    U.Frames outer outer' → ∀ {values values' : Except RunError (List Value)},
      Same (fun vs => ∀ v ∈ vs, U.Holds v) values values' →
        Same U.Returns (caller r outer values) (caller' r outer' values')

end Usage

namespace Lexical

open Usage

variable {U : Usage} {caller caller' : Caller} {c c' : Chain}

theorem same_call (hcaller : U.Callers caller caller') (h : U.Frames c.frames c'.frames)
    {name : Option Name} (hname : ∀ f ∈ name, U.Calls f) (count : Nat)
    {values values' : Except RunError (List Value)}
    (hvalues : Same (fun vs => ∀ v ∈ vs, U.Holds v) values values') :
    Same U.Returns (call caller c name count values) (call caller' c' name count values') := by
  cases name with
  | none => exact .error _
  | some name =>
    simp only [call]
    rcases definer?_agrees h (hname name rfl) with
      ⟨hfound, hfound'⟩ | ⟨r, outer, outer', hfound, hfound', hbody, houter⟩
    · rw [hfound, hfound']
      exact .error _
    · rw [hfound, hfound']
      dsimp only
      split
      · exact hcaller r hbody houter hvalues
      · exact .error _

mutual

theorem same_evaluate (hcaller : U.Callers caller caller') (h : U.Frames c.frames c'.frames)
    (e : Expr) (he : e.Within U) :
    Same U.Holds (evaluate caller c e) (evaluate caller' c' e) := by
  match e, he with
  | .literal v, .literal hv => exact .ok hv
  | .parameter v, .parameter hv => exact .ok hv
  | .access none, _ => exact .error _
  | .access (some x), .access hname =>
    obtain ⟨heq, hholds⟩ := lookup_agrees h (hname x rfl)
    have howner : c'.frame.owner = c.frame.owner := by
      cases h with
      | cons hf _ => exact hf.owner_eq
    simp only [evaluate, heq, howner]
    cases hx : c.lookup x with
    | some v => exact .ok (hholds v hx)
    | none => exact .error _
  | .call name arguments, .call hname harguments =>
    simp only [evaluate]
    refine (same_call hcaller h hname arguments.length
      (same_evaluateAll hcaller h arguments harguments)).bind fun value hvalue => ?_
    cases value with
    | some v => exact .ok (hvalue v rfl)
    | none => exact .error _
  | .builtIn [operator] [left, right], .builtIn hoperands =>
    have hleft : left.Within U := hoperands left (by simp)
    have hright : right.Within U := hoperands right (by simp)
    refine (same_evaluate hcaller h left hleft).bind fun l hl => ?_
    refine (same_evaluate hcaller h right hright).bind fun r hr => ?_
    exact .of_eq fun v hv => U.holds_apply hl hr hv
  | .builtIn [] _, _ | .builtIn (_ :: _ :: _) _, _ | .builtIn [_] [], _ | .builtIn [_] [_], _
  | .builtIn [_] (_ :: _ :: _ :: _), _ => exact .error _
  | .malformed count, _ => exact .error _
  | .invalid tag, _ => exact .error _

theorem same_evaluateAll (hcaller : U.Callers caller caller') (h : U.Frames c.frames c'.frames)
    (es : List Expr) (hes : ∀ e ∈ es, e.Within U) :
    Same (fun vs => ∀ v ∈ vs, U.Holds v) (evaluateAll caller c es)
      (evaluateAll caller' c' es) := by
  match es with
  | [] => exact .ok fun v hv => absurd hv List.not_mem_nil
  | e :: es =>
    obtain ⟨he, hes⟩ := List.forall_mem_cons.mp hes
    refine (same_evaluate hcaller h e he).bind fun v hv => ?_
    refine (same_evaluateAll hcaller h es hes).bind fun vs hvs => ?_
    exact .ok (List.forall_mem_cons.mpr ⟨hv, hvs⟩)

end

theorem same_condition (hcaller : U.Callers caller caller') (h : U.Frames c.frames c'.frames)
    {conditions : List Expr} (hconditions : ∀ e ∈ conditions, e.Within U) (body : List Stmt) :
    Same U.Holds (theCondition conditions body >>= evaluate caller c)
      (theCondition conditions body >>= evaluate caller' c') := by
  match conditions, body with
  | [], _ => exact .error _
  | [_], [] => exact .error _
  | [e], _ :: _ => exact same_evaluate hcaller h e (hconditions e List.mem_cons_self)
  | _ :: _ :: _, _ => exact .error _

theorem same_initial (hcaller : U.Callers caller caller') (h : U.Frames c.frames c'.frames)
    {i : Initializer} (hi : i.Within U) :
    Same U.Holds (initial caller c i) (initial caller' c' i) := by
  cases i with
  | literal v => exact .ok hi
  | expression e => exact same_evaluate hcaller h e hi

theorem sameIn_declare (hcaller : U.Callers caller caller') {f f' : Frame}
    {outer outer' : List Frame} (hf : f.Agrees U f') (houter : U.Frames outer outer')
    (name : Option Name) {value : Option Initializer} (hvalue : ∀ i ∈ value, i.Within U) :
    U.SameIn (declare caller ⟨f, outer⟩ name value) (declare caller' ⟨f', outer'⟩ name value) := by
  match name, value with
  | none, _ => exact ⟨.error _, hf⟩
  | some _, none => exact ⟨.error _, hf⟩
  | some x, some i =>
    have hframes : U.Frames (Chain.frames ⟨f, outer⟩) (Chain.frames ⟨f', outer'⟩) :=
      .cons hf houter
    have hsame := same_initial hcaller hframes (hvalue i rfl)
    simp only [declare]
    rw [hsame.eq]
    cases hv : initial caller ⟨f, outer⟩ i with
    | error cause => exact ⟨.error cause, hf⟩
    | ok v => exact ⟨.ok returns_none, hf.declare x (hsame.holds hv)⟩

theorem sameIn_define {f f' : Frame} (hf : f.Agrees U f') (name : Option Name)
    (parameters : List Name) {body : List Stmt} (hbody : ∀ s ∈ body, s.Within U) :
    U.SameIn (define f name parameters body) (define f' name parameters body) := by
  cases name with
  | none => exact ⟨.error _, hf⟩
  | some name =>
    simp only [define]
    split
    · exact ⟨.error _, hf⟩
    · exact ⟨.ok returns_none, hf.define (r := ⟨name, parameters, body⟩) hbody⟩

theorem same_discard (hcaller : U.Callers caller caller') (h : U.Frames c.frames c'.frames)
    {e : Expr} (he : e.Within U) :
    Same (fun _ => True) (discard caller c e) (discard caller' c' e) := by
  have hvalue : Same (fun _ => True) (do let _ ← evaluate caller c e)
      (do let _ ← evaluate caller' c' e) :=
    (same_evaluate hcaller h e he).bind fun _ _ => .ok trivial
  cases e with
  | call name arguments =>
    cases he with
    | call hname harguments =>
      exact (same_call hcaller h hname arguments.length
        (same_evaluateAll hcaller h arguments harguments)).bind fun _ _ => .ok trivial
  | literal | parameter | access | builtIn | malformed | invalid => exact hvalue

theorem sameIn_choose (hcaller : U.Callers caller caller') {f f' : Frame}
    {outer outer' : List Frame} (hf : f.Agrees U f') (houter : U.Frames outer outer')
    {conditions : List Expr} (hconditions : ∀ e ∈ conditions, e.Within U) (body : List Stmt)
    {runBody runBody' : Frame → Ending} (hbody : U.SameIn (runBody f) (runBody' f')) :
    U.SameIn (choose caller ⟨f, outer⟩ conditions body runBody)
      (choose caller' ⟨f', outer'⟩ conditions body runBody') := by
  have hframes : U.Frames (Chain.frames ⟨f, outer⟩) (Chain.frames ⟨f', outer'⟩) :=
    .cons hf houter
  have hsame := same_condition hcaller hframes hconditions body
  simp only [choose]
  rw [hsame.eq]
  split
  · split
    · exact hbody
    · exact ⟨.ok returns_none, hf⟩
  · exact ⟨.error _, hf⟩

mutual

theorem sameIn_execute (hcaller : U.Callers caller caller') {outer outer' : List Frame}
    (houter : U.Frames outer outer') {f f' : Frame} (hf : f.Agrees U f') (s : Stmt)
    (hs : s.Within U) : U.SameIn (execute caller outer s f) (execute caller' outer' s f') := by
  match s, hs with
  | .functionDefinition name parameters body, .functionDefinition hbody =>
    exact sameIn_define hf name parameters hbody
  | .conditional conditions body, .conditional hconditions hbody =>
    exact sameIn_choose hcaller hf houter hconditions body
      (sameIn_executeAll hcaller houter hf body hbody)
  | .returns e, .returns he =>
    have hframes : U.Frames (Chain.frames ⟨f, outer⟩) (Chain.frames ⟨f', outer'⟩) :=
      .cons hf houter
    exact ⟨(same_evaluate hcaller hframes e he).map fun _ => returns_some, hf⟩
  | .declaration name value, .declaration hvalue =>
    exact sameIn_declare hcaller hf houter name hvalue
  | .expression e, .expression he =>
    have hframes : U.Frames (Chain.frames ⟨f, outer⟩) (Chain.frames ⟨f', outer'⟩) :=
      .cons hf houter
    exact ⟨(same_discard hcaller hframes he).map fun _ _ => returns_none, hf⟩
  | .malformed count, _ => exact ⟨.error _, hf⟩
  | .invalid tag, _ => exact ⟨.error _, hf⟩

theorem sameIn_executeAll (hcaller : U.Callers caller caller') {outer outer' : List Frame}
    (houter : U.Frames outer outer') {f f' : Frame} (hf : f.Agrees U f') (body : List Stmt)
    (hbody : ∀ s ∈ body, s.Within U) :
    U.SameIn (executeAll caller outer body f) (executeAll caller' outer' body f') := by
  match body with
  | [] => exact ⟨.ok returns_none, hf⟩
  | s :: rest =>
    obtain ⟨hs, hrest⟩ := List.forall_mem_cons.mp hbody
    refine (sameIn_execute hcaller houter hf s hs).andThen fun g g' hg => ?_
    exact sameIn_executeAll hcaller houter hg rest hrest

end

theorem sameIn_executeItem (hcaller : U.Callers caller caller') {outer outer' : List Frame}
    (houter : U.Frames outer outer') {f f' : Frame} (hf : f.Agrees U f') {item : Item}
    (hitem : item.Within U) :
    U.SameIn (executeItem caller outer item f) (executeItem caller' outer' item f') := by
  cases item with
  | functionDefinition name parameters body => exact sameIn_define hf name parameters hitem
  | conditional conditions body =>
    exact sameIn_choose hcaller hf houter hitem.1 body
      (sameIn_executeAll hcaller houter hf body hitem.2)
  | returns e => exact sameIn_execute hcaller houter hf (.returns e) (.returns hitem)
  | invalid tag => exact ⟨.error _, hf⟩

theorem sameIn_executeItems (hcaller : U.Callers caller caller') {outer outer' : List Frame}
    (houter : U.Frames outer outer') {f f' : Frame} (hf : f.Agrees U f') (items : List Item)
    (hitems : ∀ item ∈ items, item.Within U) :
    U.SameIn (executeItems caller outer items f) (executeItems caller' outer' items f') := by
  induction items generalizing f f' with
  | nil => exact ⟨.ok returns_none, hf⟩
  | cons item rest ih =>
    obtain ⟨hitem, hrest⟩ := List.forall_mem_cons.mp hitems
    exact (sameIn_executeItem hcaller houter hf hitem).andThen fun g g' hg => ih hg hrest

theorem sameIn_run (hcaller : U.Callers caller caller') (h : U.Frames c.frames c'.frames)
    (n : Node) (hn : n.Within U) : U.SameIn (run caller c n) (run caller' c' n) := by
  obtain ⟨hf, houter⟩ := List.forall₂_cons.mp h
  cases n with
  | expression e => exact ⟨(same_evaluate hcaller h e hn).map fun _ => returns_some, hf⟩
  | call name arguments =>
    exact ⟨same_call hcaller h hn.1 arguments.length
      (same_evaluateAll hcaller h arguments hn.2), hf⟩
  | statement s => exact sameIn_execute hcaller houter hf s hn
  | block body => exact sameIn_executeAll hcaller houter hf body hn
  | conditional conditions body =>
    exact sameIn_choose hcaller hf houter hn.1 body
      (sameIn_executeAll hcaller houter hf body hn.2)
  | declaration name value => exact sameIn_declare hcaller hf houter name hn
  | definition name parameters body => exact sameIn_define hf name parameters hn
  | program p => exact sameIn_executeItems hcaller houter hf p.items hn

/-! ## Calls -/

theorem same_caller (U : Usage) (limit headroom : Nat) :
    U.Callers (Lexical.caller limit headroom) (Lexical.caller limit headroom) := by
  induction headroom with
  | zero =>
    intro r outer outer' hbody houter values values' hvalues
    exact .error _
  | succ headroom ih =>
    intro r outer outer' hbody houter values values' hvalues
    refine hvalues.bind fun vs hvs => ?_
    exact (sameIn_executeAll ih houter (.ofCall r hvs) r.body hbody).result

end Lexical

/-! ## Contexts -/

namespace Context

/-- The contexts bind the same under the names that are used, in every scope and every table,
    and are equal but for what they bind. -/
structure Agrees (U : Usage) (c c' : Context) : Prop where
  scope_eq : c'.scope = c.scope
  table_eq : c'.table = c.table
  depth_eq : c'.depth = c.depth
  limits_eq : c'.limits = c.limits
  scopes_eq : c'.variables.size = c.variables.size
  tables_eq : c'.functions.size = c.functions.size
  scope_parents : ∀ i, c'.variables.parent? i = c.variables.parent? i
  table_parents : ∀ i, c'.functions.parent? i = c.functions.parent? i
  owners : ∀ i, c'.variables.label i = c.variables.label i
  values_eq : ∀ i x, U.Reads x → c'.variables.get? i x = c.variables.get? i x
  functions_eq : ∀ i name, U.Calls name → c'.functions.get? i name = c.functions.get? i name

/-- Under the names that are used there are values of the known kind, and functions with bodies
    within the usage. -/
structure Within (U : Usage) (c : Context) : Prop where
  holds : ∀ i x v, U.Reads x → c.variables.get? i x = some v → U.Holds v
  within : ∀ i name f, U.Calls name → c.functions.get? i name = some f →
    ∀ s ∈ f.body, s.Within U

variable {U : Usage} {c c' : Context}

theorem Agrees.refl (U : Usage) (c : Context) : c.Agrees U c where
  scope_eq := rfl
  table_eq := rfl
  depth_eq := rfl
  limits_eq := rfl
  scopes_eq := rfl
  tables_eq := rfl
  scope_parents _ := rfl
  table_parents _ := rfl
  owners _ := rfl
  values_eq _ _ _ := rfl
  functions_eq _ _ _ := rfl

theorem within_new (U : Usage) (limits : Limits) : (Context.new limits).Within U where
  holds := by
    intro i x v _ hv
    cases i <;> cases hv
  within := by
    intro i name f _ hf
    cases i <;> cases hf

theorem Agrees.caller_eq (h : c.Agrees U c') : c'.caller = c.caller := by
  rw [caller, caller, headroom, headroom, h.limits_eq, h.depth_eq]

theorem Agrees.frameAt (h : c.Agrees U c') (hw : c.Within U) (i : Nat) :
    (c.frameAt i).Agrees U (c'.frameAt i) where
  owner_eq := by
    have hlabel := h.owners i
    simp only [Store.label, Store.entry] at hlabel
    simp only [Context.frameAt]
    cases hi : c.variables.entries[i]? <;> cases hi' : c'.variables.entries[i]? <;>
      simp_all [Except.map]
  values_eq x hx := by
    rw [get?_values_frameAt, get?_values_frameAt, h.values_eq i x hx]
  functions_eq name hname := by
    rw [get?_functions_frameAt, get?_functions_frameAt, h.functions_eq i name hname]
  holds x v hx hv := by
    rw [get?_values_frameAt] at hv
    exact hw.holds i x v hx hv
  within name r hname hr := by
    rw [get?_functions_frameAt] at hr
    obtain ⟨f, hf, rfl⟩ := Option.map_eq_some_iff.mp hr
    exact hw.within i name f hname hf

theorem Agrees.chain (hc : c.Aligned) (h : c.Agrees U c') (hw : c.Within U) :
    U.Frames c.chain.frames c'.chain.frames := by
  have hancestors : c'.variables.ancestors c.scope = c.variables.ancestors c.scope :=
    hc.grounded.ancestors_congr fun j _ => h.scope_parents j
  simp only [Context.chain, Chain.frames, h.scope_eq, hancestors]
  refine .cons (h.frameAt hw c.scope) ?_
  rw [List.forall₂_map_left_iff, List.forall₂_map_right_iff]
  exact List.forall₂_same.mpr fun i _ => h.frameAt hw i

/-- Contexts that agree still do when their current frames are replaced by frames that do. -/
theorem Agrees.withFrame (hc : c.Aligned) (hc' : c'.Aligned) (h : c.Agrees U c') {f f' : Frame}
    (hf : f.Agrees U f') (howner : f.owner = c.chain.frame.owner)
    (howner' : f'.owner = c'.chain.frame.owner) :
    (c.withFrame f).Agrees U (c'.withFrame f') := by
  have hsame := hc.sameOutside_withFrame howner
  have hsame' := hc'.sameOutside_withFrame howner'
  exact {
    scope_eq := h.scope_eq
    table_eq := h.table_eq
    depth_eq := h.depth_eq
    limits_eq := h.limits_eq
    scopes_eq := (hsame'.scopes_eq.trans h.scopes_eq).trans hsame.scopes_eq.symm
    tables_eq := (hsame'.tables_eq.trans h.tables_eq).trans hsame.tables_eq.symm
    scope_parents := fun i =>
      ((hsame'.scope_parents i).trans (h.scope_parents i)).trans (hsame.scope_parents i).symm
    table_parents := fun i =>
      ((hsame'.table_parents i).trans (h.table_parents i)).trans (hsame.table_parents i).symm
    owners := fun i => ((hsame'.owners i).trans (h.owners i)).trans (hsame.owners i).symm
    values_eq := by
      intro i x hx
      by_cases hi : i = c.scope
      · subst hi
        rw [hc.get?_variables_withFrame, ← h.scope_eq, hc'.get?_variables_withFrame]
        exact hf.values_eq x hx
      · have hvalues := h.values_eq i x hx
        rw [Store.get?, Store.get?, hsame.other_scopes i hi,
          hsame'.other_scopes i (h.scope_eq ▸ hi)]
        exact hvalues
    functions_eq := by
      intro i name hname
      by_cases hi : i = c.scope
      · subst hi
        rw [hc.get?_functions_withFrame, ← h.scope_eq, hc'.get?_functions_withFrame]
        exact congrArg _ (hf.functions_eq name hname)
      · have hfunctions := h.functions_eq i name hname
        rw [Store.get?, Store.get?, hsame.other_tables i (hc.table_eq ▸ hi),
          hsame'.other_tables i (h.table_eq ▸ hc.table_eq ▸ hi)]
        exact hfunctions }

theorem Within.withFrame (hc : c.Aligned) (h : c.Within U) {f f' : Frame} (hf : f.Agrees U f') :
    (c.withFrame f).Within U where
  holds := by
    intro i x v hx hv
    by_cases hi : i = c.scope
    · subst hi
      rw [hc.get?_variables_withFrame] at hv
      exact hf.holds x v hx hv
    · rw [Store.get?, c.variables_withFrame_of_ne f hi] at hv
      exact h.holds i x v hx hv
  within := by
    intro i name g hname hg
    by_cases hi : i = c.scope
    · subst hi
      rw [hc.get?_functions_withFrame] at hg
      obtain ⟨r, hr, rfl⟩ := Option.map_eq_some_iff.mp hg
      exact hf.within name r hname hr
    · rw [Store.get?, c.functions_withFrame_of_ne f (hc.table_eq ▸ hi)] at hg
      exact h.within i name g hname hg

end Context

/-- Contexts that agree on what is used lead to the same results, and still agree afterwards. -/
theorem Usage.same_run {U : Usage} {c c' : Context} (hc : c.Aligned) (hc' : c'.Aligned)
    (h : c.Agrees U c') (hw : c.Within U) {n : Node} (hn : n.Within U) (log log' : Array Event) :
    ∃ result s s', n.run ⟨c, log⟩ = .ok (result, s) ∧ n.run ⟨c', log'⟩ = .ok (result, s') ∧
      (∀ v, result = .ok (some v) → U.Holds v) ∧
      s.context.Agrees U s'.context ∧ s.context.Within U := by
  obtain ⟨log₁, hrun⟩ := n.run_endsIn hc log
  obtain ⟨log₂, hrun'⟩ := n.run_endsIn hc' log'
  have howner := (Lexical.becomes_run c.caller c.chain n).owner_eq
  have howner' := (Lexical.becomes_run c'.caller c'.chain n).owner_eq
  have hsame : U.SameIn (c.ending n) (c'.ending n) := by
    rw [Context.ending, Context.ending, h.caller_eq]
    exact Lexical.sameIn_run (Lexical.same_caller U _ _) (h.chain hc hw) n hn
  rw [hsame.result.eq] at hrun'
  refine ⟨_, _, _, hrun, hrun', ?_, ?_, ?_⟩
  · exact fun v hv => hsame.result.holds hv v rfl
  · exact h.withFrame hc hc' hsame.frame howner howner'
  · exact hw.withFrame hc hsame.frame

end TreeWalk
