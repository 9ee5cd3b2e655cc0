-- SUMMARY: Records of calls as sequences of brackets: which calls they leave open, and at what depth.
import TreeWalk.Event

/-! # Brackets

A call that is opened and a call that is closed are an opening and a closing bracket, and carry
the name of the function. `Bracketed` is the grammar of the sequences in which every bracket has
its partner, and `openCalls` reads off any sequence which calls are open at its end.

`Traced` follows a record as it is written, one event after the other. It keeps the names of the
open calls, and lets a call be opened only below a limit and with the depth that it then has.
-/

namespace TreeWalk

namespace Event

/-- Whether the event opens or closes a call. -/
def isCall : Event → Bool
  | called .. | returned .. => true
  | _ => false

end Event

/-- Every call is closed, by an event with the name of its function, and the calls that were
    opened after it are closed before it. -/
inductive Bracketed : List Event → Prop
  | nil : Bracketed []
  | call {name : Name} {parameters : List Name} {depth : Nat} {value : Option Value}
      {inner rest : List Event} (hinner : Bracketed inner) (hrest : Bracketed rest) :
      Bracketed (.called name parameters depth :: (inner ++ .returned name value :: rest))

/-- The functions of the open calls after one more event, the innermost call first. -/
def openCallsAfter (names : List Name) : Event → List Name
  | .called name _ _ => name :: names
  | .returned _ _ => names.tail
  | _ => names

/-- The functions of the calls that are open after these events, the innermost call first. -/
def openCalls (events : List Event) : List Name :=
  events.foldl openCallsAfter []

theorem openCalls_concat (events : List Event) (e : Event) :
    openCalls (events ++ [e]) = openCallsAfter (openCalls events) e := by
  rw [openCalls, openCalls, List.foldl_append]
  rfl

/-! ## Closing what is open -/

/-- The events close the open calls of these names, and all that they open themselves. -/
inductive Closes : List Name → List Event → Prop
  | nil : Closes [] []
  | called {names : List Name} {name : Name} {parameters : List Name} {depth : Nat}
      {events : List Event} (h : Closes (name :: names) events) :
      Closes names (.called name parameters depth :: events)
  | returned {names : List Name} {name : Name} {value : Option Value} {events : List Event}
      (h : Closes names events) : Closes (name :: names) (.returned name value :: events)

namespace Closes

/-- Returns from the open calls, one after the other, close them. -/
theorem returns (names : List Name) : Closes names (names.map fun name => .returned name none) := by
  induction names with
  | nil => exact .nil
  | cons name names ih => exact .returned ih

/-- What closes an open call first has a part that is bracketed, then closes the call, and then
    closes the others. -/
theorem split {names : List Name} {events : List Event} (h : Closes names events) :
    match names with
    | [] => Bracketed events
    | name :: names => ∃ inner value rest, events = inner ++ .returned name value :: rest ∧
        Bracketed inner ∧ Closes names rest ∧ rest.length < events.length := by
  induction hlength : events.length using Nat.strongRecOn generalizing names events with
  | ind length ih =>
    cases h with
    | nil => exact .nil
    | @returned names name value rest h =>
      exact ⟨[], value, rest, rfl, .nil, h, hlength ▸ Nat.lt_succ_self _⟩
    | @called names name parameters depth events h =>
      subst hlength
      -- the part that closes the new call is a bracket, and what follows closes the others
      obtain ⟨inner, value, rest, rfl, hinner, hrest, hless⟩ :=
        ih events.length (Nat.lt_succ_self _) h rfl
      have hcall : ∀ {rest : List Event}, Bracketed rest → Bracketed
          (.called name parameters depth :: (inner ++ .returned name value :: rest)) :=
        fun hrest => .call hinner hrest
      have hsplit := ih rest.length (Nat.lt_succ_of_lt hless) hrest rfl
      cases names with
      | nil => exact hcall hsplit
      | cons other names =>
        obtain ⟨inner', value', rest', rfl, hinner', hrest', hless'⟩ := hsplit
        refine ⟨_, value', rest', ?_, hcall hinner', hrest', ?_⟩
        · simp
        · simp only [List.length_cons, List.length_append] at hless hless' ⊢
          omega

theorem bracketed {events : List Event} (h : Closes [] events) : Bracketed events :=
  h.split

end Closes

/-! ## Records -/

/-- A record in which these calls are open. A call was opened only if fewer calls than the limit
    were open, with the number that were open after it, and only the innermost one was closed. -/
inductive Traced (limit : Nat) : List Event → List Name → Prop
  | nil : Traced limit [] []
  | called {events : List Event} {names : List Name} (h : Traced limit events names)
      (hlimit : names.length < limit) (name : Name) (parameters : List Name) :
      Traced limit (events ++ [.called name parameters (names.length + 1)]) (name :: names)
  | returned {events : List Event} {name : Name} {names : List Name}
      (h : Traced limit events (name :: names)) (value : Option Value) :
      Traced limit (events ++ [.returned name value]) names
  | other {events : List Event} {names : List Name} (h : Traced limit events names) {e : Event}
      (he : e.isCall = false) : Traced limit (events ++ [e]) names

namespace Traced

variable {limit : Nat} {events : List Event} {names : List Name}

theorem length_le (h : Traced limit events names) : names.length ≤ limit := by
  induction h with
  | nil => exact Nat.zero_le _
  | called _ hlimit => exact hlimit
  | returned _ _ ih => exact Nat.le_of_succ_le ih
  | other _ _ ih => exact ih

theorem openCalls_eq (h : Traced limit events names) : openCalls events = names := by
  induction h with
  | nil => rfl
  | called _ _ name parameters ih => rw [openCalls_concat, ih, openCallsAfter]
  | returned _ value ih => rw [openCalls_concat, ih, openCallsAfter, List.tail_cons]
  | @other _ _ _ e he ih =>
    rw [openCalls_concat, ih]
    cases e with
    | called | returned => cases he
    | _ => rfl

/-- Only the events that open and close calls matter. -/
theorem filter (h : Traced limit events names) :
    Traced limit (events.filter Event.isCall) names := by
  induction h with
  | nil => exact .nil
  | called _ hlimit name parameters ih =>
    rw [List.filter_append]
    exact ih.called hlimit name parameters
  | returned _ value ih =>
    rw [List.filter_append]
    exact ih.returned value
  | other _ he ih => simpa [List.filter_append, he] using ih

/-- Every call was opened at its depth, which is within the limit. -/
theorem depth_of_prefix (h : Traced limit events names) {before : List Event} {name : Name}
    {parameters : List Name} {depth : Nat}
    (hbefore : before ++ [.called name parameters depth] <+: events) :
    depth = (openCalls (before ++ [.called name parameters depth])).length ∧
      1 ≤ depth ∧ depth ≤ limit := by
  induction h with
  | nil => simp at hbefore
  | @called events names h hlimit f xs ih =>
    rcases List.prefix_concat_iff.mp hbefore with hlast | hearlier
    · obtain ⟨rfl, hevent⟩ := List.append_inj' hlast rfl
      cases hevent
      rw [openCalls_concat, h.openCalls_eq]
      exact ⟨rfl, Nat.le_add_left 1 _, hlimit⟩
    · exact ih hearlier
  | returned _ value ih =>
    rcases List.prefix_concat_iff.mp hbefore with hlast | hearlier
    · cases (List.append_inj' hlast rfl).2
    · exact ih hearlier
  | @other _ _ _ e he ih =>
    rcases List.prefix_concat_iff.mp hbefore with hlast | hearlier
    · cases (List.append_inj' hlast rfl).2
      cases he
    · exact ih hearlier

/-- With what closes its open calls, a record of calls is closed as a whole. -/
theorem closes (h : Traced limit events names) (hcalls : ∀ e ∈ events, e.isCall = true)
    {rest : List Event} (hrest : Closes names rest) : Closes [] (events ++ rest) := by
  induction h generalizing rest with
  | nil => exact hrest
  | called _ _ name parameters ih =>
    rw [List.append_assoc]
    exact ih (fun e he => hcalls e (List.mem_append_left _ he)) hrest.called
  | returned _ value ih =>
    rw [List.append_assoc]
    exact ih (fun e he => hcalls e (List.mem_append_left _ he)) hrest.returned
  | @other _ _ _ e he =>
    rw [hcalls e (List.mem_append_right _ List.mem_cons_self)] at he
    cases he

theorem exists_bracketed (h : Traced limit events names) (hcalls : ∀ e ∈ events, e.isCall = true) :
    ∃ rest, Bracketed (events ++ rest) :=
  ⟨_, (h.closes hcalls (.returns names)).bracketed⟩

theorem bracketed (h : Traced limit events []) (hcalls : ∀ e ∈ events, e.isCall = true) :
    Bracketed events := by
  simpa using (h.closes hcalls .nil).bracketed

end Traced

end TreeWalk
