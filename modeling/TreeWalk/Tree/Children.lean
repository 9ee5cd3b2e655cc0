-- SUMMARY: The children of a node: its entries, with lists spread out.
import TreeWalk.ShapeError
import TreeWalk.Tree.Basic

/-! # Children

Several children of one kind are written as entries that repeat a tag or as one
entry with a list. `Tree.children` spreads such lists out, by one level, so that
both forms give the same children in the same order. The tags of all entries are
checked before anything is made of the first child.

Children are smaller than their node, which is what recursion on trees goes by;
`Tree.childrenWithin` hands them out with that fact.
-/

namespace TreeWalk

/-- The children that one entry stands for. An empty list would make an operator
    disappear, and is refused. -/
def entryChildren (parent : Tag) (key : String) (payload : Tree) :
    Except ShapeError (List (Tag × Tree)) := do
  let tag ← Tag.ofText key
  match payload with
  | .list [] => if tag.isOperator then .error (.emptyOperator tag parent) else .ok []
  | .list items => .ok (items.map fun item => (tag, item))
  | payload => .ok [(tag, payload)]

/-- The children that entries stand for, in order. -/
def entriesChildren (parent : Tag) : List (String × Tree) → Except ShapeError (List (Tag × Tree))
  | [] => .ok []
  | (key, payload) :: rest => do
      let first ← entryChildren parent key payload
      let others ← entriesChildren parent rest
      return first ++ others

namespace Tree

/-- The children of a node. Anything but an object cannot have any. -/
def children (t : Tree) (parent : Tag) : Except ShapeError (List (Tag × Tree)) :=
  match t with
  | object entries => entriesChildren parent entries
  | _ => .error (.notAnObject parent)

/-! ### Sizes -/

theorem sizeOf_of_entryChildren {parent : Tag} {key : String} {payload : Tree}
    {cs : List (Tag × Tree)} (h : entryChildren parent key payload = .ok cs) {c : Tag × Tree}
    (hc : c ∈ cs) : sizeOf c.2 ≤ sizeOf payload := by
  unfold entryChildren at h
  cases ht : Tag.ofText key with
  | error e => simp [ht, bind, Except.bind] at h
  | ok tag =>
    simp only [ht, bind, Except.bind] at h
    split at h
    · split at h <;> cases h
      cases hc
    · cases h
      obtain ⟨item, hi, rfl⟩ := List.mem_map.mp hc
      have := List.sizeOf_lt_of_mem hi
      simp only [list.sizeOf_spec]
      omega
    · cases h
      cases List.mem_singleton.mp hc
      exact Nat.le_refl _

theorem sizeOf_of_entriesChildren {parent : Tag} {entries : List (String × Tree)}
    {cs : List (Tag × Tree)} (h : entriesChildren parent entries = .ok cs) {c : Tag × Tree}
    (hc : c ∈ cs) : sizeOf c.2 < sizeOf entries := by
  induction entries generalizing cs with
  | nil => cases h; cases hc
  | cons entry rest ih =>
    obtain ⟨key, payload⟩ := entry
    unfold entriesChildren at h
    cases hf : entryChildren parent key payload with
    | error e => simp [hf, bind, Except.bind] at h
    | ok first =>
      cases ho : entriesChildren parent rest with
      | error e => simp [hf, ho, bind, Except.bind] at h
      | ok others =>
        simp only [hf, ho, bind, Except.bind, pure, Except.pure, Except.ok.injEq] at h
        subst h
        simp only [List.cons.sizeOf_spec, Prod.mk.sizeOf_spec]
        rcases List.mem_append.mp hc with hc | hc
        · have := sizeOf_of_entryChildren hf hc
          omega
        · have := ih ho hc
          omega

/-- Children are smaller than their node. -/
theorem sizeOf_of_children {t : Tree} {parent : Tag} {cs : List (Tag × Tree)}
    (h : t.children parent = .ok cs) {c : Tag × Tree} (hc : c ∈ cs) :
    sizeOf c.2 < sizeOf t := by
  unfold children at h
  split at h
  · have := sizeOf_of_entriesChildren h hc
    simp only [object.sizeOf_spec]
    omega
  · cases h

/-- A tree below another one. -/
abbrev Below (t : Tree) := { c : Tree // sizeOf c < sizeOf t }

/-- The children of a node, known to be smaller than it. -/
def childrenWithin (t : Tree) (parent : Tag) : Except ShapeError (List (Tag × Below t)) :=
  match h : t.children parent with
  | .error e => .error e
  | .ok cs => .ok (cs.attach.map fun c => (c.1.1, ⟨c.1.2, sizeOf_of_children h c.2⟩))

/-- Without the sizes, they are just the children. -/
theorem map_childrenWithin (t : Tree) (parent : Tag) :
    (t.childrenWithin parent).map (fun cs => cs.map fun c => (c.1, c.2.1)) =
      t.children parent := by
  unfold childrenWithin
  split
  · next e h => simp [h, Except.map]
  · next cs h =>
    simp only [h, Except.map, List.map_map, Except.ok.injEq]
    exact List.attach_map_subtype_val cs

end Tree

end TreeWalk
