-- SUMMARY: When a run follows another one that has other names and other frames.
import TreeWalk.Proofs.Renaming

/-! # Correspondence of runs

Two runs of a program, the second one with its names changed and on frames of its own. What
evaluation asks of frames is little: what a name means, and that declarations, definitions
and calls can be made. If the frames of the two runs agree on that (`Correspondence`), then the
runs end in the same, up to the names in errors.

The first run may be excused from some errors. If it ends in one of them, nothing is said about
the second run; a name that the first run does not know may mean something to the second.
-/

namespace TreeWalk

variable {α β : Type}

/-- The result is an error of this sort. -/
def Fails (sort : RunError → Prop) (result : Except RunError α) : Prop :=
  ∃ cause, result = .error cause ∧ sort cause

@[simp] theorem fails_error {sort : RunError → Prop} {cause : RunError} :
    Fails sort (.error cause : Except RunError α) ↔ sort cause := by
  simp [Fails]

@[simp] theorem not_fails_ok {sort : RunError → Prop} (a : α) : ¬ Fails sort (.ok a) := by
  simp [Fails]

namespace Lexical

/-- A relation between the frames of two runs, and why the second run follows the first one
    as long as it holds. -/
structure Correspondence where
  names : Renaming
  /-- the errors of the first run that the second one need not share -/
  Excused : RunError → Prop
  /-- the current frames with those that they lie in -/
  Frames : List Frame → List Frame → Prop
  lookup_some {c c' : Chain} (h : Frames c.frames c'.frames) {x : Name} {v : Value}
    (hx : c.lookup x = some v) : c'.lookup (names.onVariables x) = some v
  lookup_none {c c' : Chain} (h : Frames c.frames c'.frames) {x : Name}
    (hx : c.lookup x = none) :
    Excused (.undefinedVariable x c.frame.owner) ∨
      (c'.lookup (names.onVariables x) = none ∧
        c'.frame.owner = c.frame.owner.map names.onFunctions)
  definer?_some {fs fs' : List Frame} (h : Frames fs fs') {name : Name} {r : Routine}
    {outer : List Frame} (hr : definer? name fs = some (r, outer)) :
    ∃ outer', definer? (names.onFunctions name) fs' = some (r.rename names, outer') ∧
      Frames outer outer'
  definer?_none {fs fs' : List Frame} (h : Frames fs fs') {name : Name}
    (hr : definer? name fs = none) :
    Excused (.undefinedFunction name) ∨ definer? (names.onFunctions name) fs' = none
  frames_declare {f f' : Frame} {outer outer' : List Frame} (h : Frames (f :: outer) (f' :: outer'))
    (x : Name) (v : Value) :
    Frames (f.declare x v :: outer) (f'.declare (names.onVariables x) v :: outer')
  frames_define {f f' : Frame} {outer outer' : List Frame} (h : Frames (f :: outer) (f' :: outer'))
    (r : Routine) : Frames (f.define r :: outer) (f'.define (r.rename names) :: outer')
  frames_ofCall {fs fs' : List Frame} (h : Frames fs fs') (r : Routine) (vs : List Value) :
    Frames (.ofCall r vs :: fs) (.ofCall (r.rename names) vs :: fs')

namespace Correspondence

variable {K : Correspondence}

/-! ## Results -/

/-- The second result is the first one with the names of its error changed, unless the error
    is excused. -/
def Agree (K : Correspondence) (result result' : Except RunError α) : Prop :=
  Fails K.Excused result ∨ result' = result.mapError (RunError.rename K.names)

/-- The results agree, and the frames correspond that the statements leave. -/
def AgreeIn (K : Correspondence) (outer outer' : List Frame) (ending ending' : Ending) : Prop :=
  Fails K.Excused ending.1 ∨
    (ending'.1 = ending.1.mapError (RunError.rename K.names) ∧
      K.Frames (ending.2 :: outer) (ending'.2 :: outer'))

/-- Given frames that correspond and arguments that agree, the callers give results that
    agree. -/
def Callers (K : Correspondence) (caller caller' : Caller) : Prop :=
  ∀ (r : Routine) {outer outer' : List Frame}, K.Frames outer outer' →
    ∀ {values values' : Except RunError (List Value)}, K.Agree values values' →
      K.Agree (caller r outer values) (caller' (r.rename K.names) outer' values')

namespace Agree

theorem ok (a : α) : K.Agree (.ok a) (.ok a) :=
  .inr rfl

theorem error (cause : RunError) :
    K.Agree (.error cause : Except RunError α) (.error (cause.rename K.names)) :=
  .inr rfl

theorem excused {result : Except RunError α} (h : Fails K.Excused result)
    (result' : Except RunError α) : K.Agree result result' :=
  .inl h

/-- An excused error, two errors that differ in names alone, or one value. -/
theorem cases {result result' : Except RunError α} (h : K.Agree result result') :
    Fails K.Excused result ∨
      (∃ cause, result = .error cause ∧ result' = .error (cause.rename K.names)) ∨
      ∃ a, result = .ok a ∧ result' = .ok a := by
  rcases h with hexcused | rfl
  · exact .inl hexcused
  · cases result with
    | error cause => exact .inr (.inl ⟨cause, rfl, rfl⟩)
    | ok a => exact .inr (.inr ⟨a, rfl, rfl⟩)

theorem bind {result result' : Except RunError α} {next next' : α → Except RunError β}
    (h : K.Agree result result') (hnext : ∀ a, K.Agree (next a) (next' a)) :
    K.Agree (result >>= next) (result' >>= next') := by
  rcases h.cases with ⟨cause, rfl, hexcused⟩ | ⟨cause, rfl, rfl⟩ | ⟨a, rfl, rfl⟩
  · exact excused (fails_error.mpr hexcused) _
  · exact error cause
  · exact hnext a

theorem map {result result' : Except RunError α} (h : K.Agree result result') (f : α → β) :
    K.Agree (result.map f) (result'.map f) := by
  rcases h.cases with ⟨cause, rfl, hexcused⟩ | ⟨cause, rfl, rfl⟩ | ⟨a, rfl, rfl⟩
  · exact excused (fails_error.mpr hexcused) _
  · exact error cause
  · exact ok (f a)

theorem agreeIn {result result' : Except RunError (Option Value)} (h : K.Agree result result')
    {f f' : Frame} {outer outer' : List Frame} (hframes : K.Frames (f :: outer) (f' :: outer')) :
    K.AgreeIn outer outer' (result, f) (result', f') :=
  h.imp_right fun h => ⟨h, hframes⟩

end Agree

namespace AgreeIn

variable {outer outer' : List Frame} {ending ending' : Ending}

theorem result (h : K.AgreeIn outer outer' ending ending') : K.Agree ending.1 ending'.1 :=
  h.imp_right And.left

theorem andThen {following following' : Frame → Ending} (h : K.AgreeIn outer outer' ending ending')
    (hfollowing : ∀ f f', K.Frames (f :: outer) (f' :: outer') →
      K.AgreeIn outer outer' (following f) (following' f')) :
    K.AgreeIn outer outer' (ending.andThen following) (ending'.andThen following') := by
  rcases h with ⟨cause, hcause, hexcused⟩ | ⟨hresult, hframes⟩
  · exact .inl ⟨cause, Ending.andThen_of_error hcause following, hexcused⟩
  · obtain ⟨result, f⟩ := ending
    obtain ⟨result', f'⟩ := ending'
    cases hresult
    match result with
    | .error cause => exact .inr ⟨rfl, hframes⟩
    | .ok (some v) => exact .inr ⟨rfl, hframes⟩
    | .ok none => exact hfollowing f f' hframes

end AgreeIn

/-! ## Syntax -/

section Operators

/-! ### Operators

They know no names, so they end in the same whatever the names are. -/

theorem agree_add (l r : Number) : K.Agree (l.add r) (l.add r) := by
  unfold Number.add
  split
  · exact .ok _
  · exact .error _

theorem agree_sub (l r : Number) : K.Agree (l.sub r) (l.sub r) := by
  unfold Number.sub
  split
  · exact .ok _
  · exact .error _

theorem agree_asNumber (v : Value) : K.Agree v.asNumber v.asNumber := by
  cases v with
  | number n => exact .ok n
  | string | boolean => exact .error _

theorem agree_apply (operator : Operator) (l r : Value) :
    K.Agree (operator.apply l r) (operator.apply l r) := by
  match operator, l, r with
  | .equality, l, r => exact .ok _
  | .plus, .number l, .number r => exact (agree_add l r).map _
  | .plus, .string l, .string r => exact .ok _
  | .plus, .boolean _, _ | .plus, .number _, .string _ | .plus, .number _, .boolean _
  | .plus, .string _, .number _ | .plus, .string _, .boolean _ => exact .error _
  | .minus, l, r =>
    refine (agree_asNumber l).bind fun l => (agree_asNumber r).bind fun r => ?_
    exact (agree_sub l r).bind fun n => .ok _

theorem agree_builtInFault (operators : List Operator) (count : Nat) :
    K.Agree (.error (builtInFault operators count) : Except RunError α)
      (.error (builtInFault operators count)) := by
  match operators with
  | [] | [_] | _ :: _ :: _ => exact .error _

end Operators

section Syntax

variable {caller caller' : Caller} {c c' : Chain}

theorem agree_call (hcaller : K.Callers caller caller') (h : K.Frames c.frames c'.frames)
    (name : Option Name) (count : Nat) {values values' : Except RunError (List Value)}
    (hvalues : K.Agree values values') :
    K.Agree (call caller c name count values)
      (call caller' c' (name.map K.names.onFunctions) count values') := by
  cases name with
  | none => exact .error _
  | some name =>
    simp only [call, Option.map_some]
    cases hfound : definer? name c.frames with
    | none =>
      rcases K.definer?_none h hfound with hexcused | hfound'
      · exact .excused (fails_error.mpr hexcused) _
      · rw [hfound']
        exact .error _
    | some found =>
      obtain ⟨r, outer⟩ := found
      obtain ⟨outer', hfound', houter⟩ := K.definer?_some h hfound
      rw [hfound']
      simp only [Routine.rename, List.length_map]
      split
      · exact hcaller r houter hvalues
      · exact .error _

mutual

theorem agree_evaluate (hcaller : K.Callers caller caller') (h : K.Frames c.frames c'.frames)
    (e : Expr) : K.Agree (evaluate caller c e) (evaluate caller' c' (e.rename K.names)) := by
  match e with
  | .literal v => exact .ok v
  | .parameter v => exact .ok v
  | .access none => exact .error _
  | .access (some x) =>
    simp only [Expr.rename, Option.map_some, evaluate]
    cases hx : c.lookup x with
    | some v =>
      rw [K.lookup_some h hx]
      exact .ok v
    | none =>
      rcases K.lookup_none h hx with hexcused | ⟨hx', howner⟩
      · exact .excused (fails_error.mpr hexcused) _
      · rw [hx', howner]
        exact .error _
  | .call name arguments =>
    have harguments := agree_evaluateAll hcaller h arguments
    simp only [Expr.rename, evaluate, Expr.length_renameAll]
    refine (agree_call hcaller h name arguments.length harguments).bind fun value => ?_
    cases value with
    | some v => exact .ok v
    | none => exact .error _
  | .builtIn [operator] [left, right] =>
    refine (agree_evaluate hcaller h left).bind fun l => ?_
    refine (agree_evaluate hcaller h right).bind fun r => ?_
    exact agree_apply operator l r
  | .builtIn [] _ | .builtIn (_ :: _ :: _) _ | .builtIn [_] [] | .builtIn [_] [_]
  | .builtIn [_] (_ :: _ :: _ :: _) =>
    simp only [Expr.rename, Expr.renameAll, evaluate, List.length_cons, Expr.length_renameAll]
    exact agree_builtInFault _ _
  | .malformed count => exact .error _
  | .invalid tag => exact .error _

theorem agree_evaluateAll (hcaller : K.Callers caller caller') (h : K.Frames c.frames c'.frames)
    (es : List Expr) :
    K.Agree (evaluateAll caller c es) (evaluateAll caller' c' (Expr.renameAll K.names es)) := by
  match es with
  | [] => exact .ok []
  | e :: es =>
    refine (agree_evaluate hcaller h e).bind fun v => ?_
    refine (agree_evaluateAll hcaller h es).bind fun vs => ?_
    exact .ok (v :: vs)

end

theorem agree_condition (hcaller : K.Callers caller caller') (h : K.Frames c.frames c'.frames)
    (conditions : List Expr) (body : List Stmt) :
    K.Agree (theCondition conditions body >>= evaluate caller c)
      (theCondition (Expr.renameAll K.names conditions) (Stmt.renameAll K.names body) >>=
        evaluate caller' c') := by
  match conditions, body with
  | [], _ => exact .error _
  | [_], [] => exact .error _
  | [e], _ :: _ => exact agree_evaluate hcaller h e
  | _ :: _ :: _, _ => exact .error _

theorem agree_initial (hcaller : K.Callers caller caller') (h : K.Frames c.frames c'.frames)
    (value : Initializer) :
    K.Agree (initial caller c value) (initial caller' c' (value.rename K.names)) := by
  cases value with
  | literal v => exact .ok v
  | expression e => exact agree_evaluate hcaller h e

theorem agreeIn_declare (hcaller : K.Callers caller caller') (h : K.Frames c.frames c'.frames)
    (name : Option Name) (value : Option Initializer) :
    K.AgreeIn c.outer c'.outer (declare caller c name value)
      (declare caller' c' (name.map K.names.onVariables)
        (value.map (Initializer.rename K.names))) := by
  match name, value with
  | none, _ => exact (Agree.error _).agreeIn h
  | some _, none => exact (Agree.error _).agreeIn h
  | some x, some value =>
    simp only [declare, Option.map_some]
    rcases (agree_initial hcaller h value).cases with
      ⟨cause, hv, hexcused⟩ | ⟨cause, hv, hv'⟩ | ⟨v, hv, hv'⟩
    · rw [hv]
      exact .inl (fails_error.mpr hexcused)
    · rw [hv, hv']
      exact (Agree.error cause).agreeIn h
    · rw [hv, hv']
      exact (Agree.ok none).agreeIn (K.frames_declare h x v)

theorem agreeIn_define {f f' : Frame} {outer outer' : List Frame}
    (h : K.Frames (f :: outer) (f' :: outer')) (name : Option Name) (parameters : List Name)
    (body : List Stmt) :
    K.AgreeIn outer outer' (define f name parameters body)
      (define f' (name.map K.names.onFunctions) (parameters.map K.names.onVariables)
        (Stmt.renameAll K.names body)) := by
  cases name with
  | none => exact (Agree.error _).agreeIn h
  | some name =>
    simp only [define, Option.map_some, Stmt.isEmpty_renameAll]
    split
    · exact (Agree.error _).agreeIn h
    · exact (Agree.ok none).agreeIn (K.frames_define h ⟨name, parameters, body⟩)

theorem agree_discard (hcaller : K.Callers caller caller') (h : K.Frames c.frames c'.frames)
    (e : Expr) : K.Agree (discard caller c e) (discard caller' c' (e.rename K.names)) := by
  have hvalue : K.Agree (do let _ ← evaluate caller c e)
      (do let _ ← evaluate caller' c' (e.rename K.names)) :=
    (agree_evaluate hcaller h e).bind fun _ => .ok ()
  cases e with
  | call name arguments =>
    have harguments := agree_evaluateAll hcaller h arguments
    simp only [Expr.rename, discard, Expr.length_renameAll]
    exact (agree_call hcaller h name arguments.length harguments).bind fun _ => .ok ()
  | literal | parameter | access | builtIn | malformed | invalid => exact hvalue

theorem agreeIn_choose (hcaller : K.Callers caller caller') (h : K.Frames c.frames c'.frames)
    (conditions : List Expr) (body : List Stmt) {runBody runBody' : Frame → Ending}
    (hbody : K.AgreeIn c.outer c'.outer (runBody c.frame) (runBody' c'.frame)) :
    K.AgreeIn c.outer c'.outer (choose caller c conditions body runBody)
      (choose caller' c' (Expr.renameAll K.names conditions) (Stmt.renameAll K.names body)
        runBody') := by
  rw [choose, choose]
  rcases (agree_condition hcaller h conditions body).cases with
    ⟨cause, hv, hexcused⟩ | ⟨cause, hv, hv'⟩ | ⟨v, hv, hv'⟩
  · rw [hv]
    exact .inl (fails_error.mpr hexcused)
  · rw [hv, hv']
    exact (Agree.error cause).agreeIn h
  · rw [hv, hv']
    dsimp only
    split
    · exact hbody
    · exact (Agree.ok none).agreeIn h

mutual

theorem agreeIn_execute (hcaller : K.Callers caller caller') {outer outer' : List Frame}
    {f f' : Frame} (h : K.Frames (f :: outer) (f' :: outer')) (s : Stmt) :
    K.AgreeIn outer outer' (execute caller outer s f)
      (execute caller' outer' (s.rename K.names) f') := by
  have hchain : K.Frames (Chain.frames ⟨f, outer⟩) (Chain.frames ⟨f', outer'⟩) := h
  cases s with
  | functionDefinition name parameters body => exact agreeIn_define h name parameters body
  | conditional conditions body =>
    exact agreeIn_choose hcaller hchain conditions body (agreeIn_executeAll hcaller h body)
  | returns e => exact ((agree_evaluate hcaller hchain e).map some).agreeIn h
  | declaration name value => exact agreeIn_declare hcaller hchain name value
  | expression e => exact ((agree_discard hcaller hchain e).map fun _ => none).agreeIn h
  | malformed count => exact (Agree.error _).agreeIn h
  | invalid tag => exact (Agree.error _).agreeIn h

theorem agreeIn_executeAll (hcaller : K.Callers caller caller') {outer outer' : List Frame}
    {f f' : Frame} (h : K.Frames (f :: outer) (f' :: outer')) (body : List Stmt) :
    K.AgreeIn outer outer' (executeAll caller outer body f)
      (executeAll caller' outer' (Stmt.renameAll K.names body) f') := by
  cases body with
  | nil => exact (Agree.ok none).agreeIn h
  | cons s rest =>
    exact (agreeIn_execute hcaller h s).andThen
      fun f f' h => agreeIn_executeAll hcaller h rest

end

theorem agreeIn_executeItem (hcaller : K.Callers caller caller') {outer outer' : List Frame}
    {f f' : Frame} (h : K.Frames (f :: outer) (f' :: outer')) (item : Item) :
    K.AgreeIn outer outer' (executeItem caller outer item f)
      (executeItem caller' outer' (item.rename K.names) f') := by
  have hchain : K.Frames (Chain.frames ⟨f, outer⟩) (Chain.frames ⟨f', outer'⟩) := h
  cases item with
  | functionDefinition name parameters body => exact agreeIn_define h name parameters body
  | conditional conditions body =>
    exact agreeIn_choose hcaller hchain conditions body (agreeIn_executeAll hcaller h body)
  | returns e => exact ((agree_evaluate hcaller hchain e).map some).agreeIn h
  | invalid tag => exact (Agree.error _).agreeIn h

theorem agreeIn_executeItems (hcaller : K.Callers caller caller') {outer outer' : List Frame}
    {f f' : Frame} (h : K.Frames (f :: outer) (f' :: outer')) (items : List Item) :
    K.AgreeIn outer outer' (executeItems caller outer items f)
      (executeItems caller' outer' (items.map (Item.rename K.names)) f') := by
  induction items generalizing f f' with
  | nil => exact (Agree.ok none).agreeIn h
  | cons item rest ih => exact (agreeIn_executeItem hcaller h item).andThen fun f f' h => ih h

theorem agreeIn_run (hcaller : K.Callers caller caller') (h : K.Frames c.frames c'.frames)
    (n : Node) :
    K.AgreeIn c.outer c'.outer (run caller c n) (run caller' c' (n.rename K.names)) := by
  cases n with
  | expression e => exact ((agree_evaluate hcaller h e).map some).agreeIn h
  | call name arguments =>
    have harguments := agree_evaluateAll hcaller h arguments
    simp only [Node.rename, run, Expr.length_renameAll]
    exact (agree_call hcaller h name arguments.length harguments).agreeIn h
  | statement s => exact agreeIn_execute hcaller h s
  | block body => exact agreeIn_executeAll hcaller h body
  | conditional conditions body =>
    exact agreeIn_choose hcaller h conditions body (agreeIn_executeAll hcaller h body)
  | declaration name value => exact agreeIn_declare hcaller h name value
  | definition name parameters body => exact agreeIn_define h name parameters body
  | program p => exact agreeIn_executeItems hcaller h p.items

end Syntax

/-! ## Calls -/

/-- The calls of the two runs are refused at the same depth. -/
theorem callers (K : Correspondence) (limit headroom : Nat) :
    K.Callers (caller limit headroom) (caller limit headroom) := by
  induction headroom with
  | zero =>
    intro r outer outer' houter values values' hvalues
    exact .error _
  | succ headroom ih =>
    intro r outer outer' houter values values' hvalues
    refine hvalues.bind fun vs => ?_
    exact (agreeIn_executeAll ih (K.frames_ofCall houter r vs) r.body).result

end Correspondence

end Lexical

end TreeWalk
