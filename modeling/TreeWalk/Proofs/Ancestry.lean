-- SUMMARY: The ancestors of a store's entries, looking names up along them, and what the operations of a store keep of them.
import TreeWalk.Store

/-! # Ancestry

The ancestors of an entry are the entries above it, the nearest first. A lookup
goes through the entry itself and then through its ancestors (`find_eq`), so all
that a lookup depends on is read off one list of indices.

`overwrite` and `extend` are the two changes that evaluation makes to a store,
without the checks: replacing what an entry holds, and adding an entry. Neither
moves an entry that is there already.
-/

namespace TreeWalk

namespace Store

variable {ℓ ℓ' α α' : Type}

/-- The parent of an entry, if the entry is there and has one. -/
def parent? (s : Store ℓ α) (id : Nat) : Option Nat :=
  s.entries[id]?.bind fun e => e.parent

/-- What an entry itself binds a name to, if the entry is there. -/
def get? (s : Store ℓ α) (id : Nat) (x : Name) : Option α :=
  s.entries[id]?.bind fun e => e.bindings.get? x

/-- The entries above an entry, the nearest first. -/
def ancestors (s : Store ℓ α) (id : Nat) : List Nat :=
  match s.parent? id with
  | none => []
  | some parent => if parent < id then parent :: s.ancestors parent else []
termination_by id

/-- Every entry that has a parent has it below itself. -/
def Grounded (s : Store ℓ α) : Prop :=
  ∀ i p, s.parent? i = some p → p < i

theorem exists_entry {s : Store ℓ α} {i : Nat} (h : i < s.size) :
    ∃ e, s.entries[i]? = some e :=
  ⟨_, Array.getElem?_eq_getElem h⟩

theorem lt_size_of_getElem? {s : Store ℓ α} {i : Nat} {e : Entry ℓ α}
    (h : s.entries[i]? = some e) : i < s.size := by
  obtain ⟨hi, -⟩ := Array.getElem?_eq_some_iff.mp h
  exact hi

/-! ## Climbing -/

theorem ancestors_of_root {s : Store ℓ α} {i : Nat} (h : s.parent? i = none) :
    s.ancestors i = [] := by
  rw [ancestors, h]

theorem ancestors_of_parent {s : Store ℓ α} {i p : Nat} (h : s.parent? i = some p)
    (hlt : p < i) : s.ancestors i = p :: s.ancestors p := by
  rw [ancestors, h]
  exact if_pos hlt

/-- Induction from the roots of a grounded store up to an entry. -/
theorem Grounded.induction {s : Store ℓ α} (hs : s.Grounded) {motive : Nat → Prop}
    (root : ∀ i, s.parent? i = none → motive i)
    (child : ∀ i p, s.parent? i = some p → p < i → motive p → motive i) (i : Nat) :
    motive i := by
  induction i using Nat.strongRecOn with
  | ind i ih =>
    cases h : s.parent? i with
    | none => exact root i h
    | some p => exact child i p h (hs i p h) (ih p (hs i p h))

theorem Grounded.lt_of_mem_ancestors {s : Store ℓ α} (hs : s.Grounded) {i j : Nat}
    (hj : j ∈ s.ancestors i) : j < i := by
  revert hj
  refine hs.induction (motive := fun i => j ∈ s.ancestors i → j < i) ?_ ?_ i
  · intro i hroot hj
    simp [ancestors_of_root hroot] at hj
  · intro i p hp hlt ih hj
    rw [ancestors_of_parent hp hlt] at hj
    rcases List.mem_cons.mp hj with rfl | hj
    · exact hlt
    · exact Nat.lt_trans (ih hj) hlt

/-- Ancestors depend on nothing but the parents up to the entry. -/
theorem Grounded.ancestors_congr {s : Store ℓ α} (hs : s.Grounded) {s' : Store ℓ' α'} {i : Nat}
    (h : ∀ j ≤ i, s'.parent? j = s.parent? j) : s'.ancestors i = s.ancestors i := by
  revert h
  refine hs.induction
    (motive := fun i => (∀ j ≤ i, s'.parent? j = s.parent? j) → s'.ancestors i = s.ancestors i)
    ?_ ?_ i
  · intro i hroot h
    rw [ancestors_of_root hroot, ancestors_of_root ((h i (Nat.le_refl i)).trans hroot)]
  · intro i p hp hlt ih h
    rw [ancestors_of_parent hp hlt, ancestors_of_parent ((h i (Nat.le_refl i)).trans hp) hlt,
      ih fun j hj => h j (Nat.le_trans hj (Nat.le_of_lt hlt))]

/-- A lookup that starts at an entry that is there gives what the nearest of the
    entry and its ancestors binds the name to. -/
theorem Grounded.find_eq {s : Store ℓ α} (hs : s.Grounded) {i : Nat} (hi : i < s.size) (x : Name) :
    s.find i x = .ok ((i :: s.ancestors i).findSome? fun j => s.get? j x) := by
  revert hi
  refine hs.induction (motive := fun i => i < s.size →
    s.find i x = .ok ((i :: s.ancestors i).findSome? fun j => s.get? j x)) ?_ ?_ i
  · intro i hroot hi
    obtain ⟨e, he⟩ := exists_entry hi
    have hparent : e.parent = none := by simpa [parent?, he] using hroot
    rw [find, ancestors_of_root hroot]
    cases hx : e.bindings.get? x <;> simp [he, hx, hparent, get?]
  · intro i p hp hlt ih hi
    obtain ⟨e, he⟩ := exists_entry hi
    have hparent : e.parent = some p := by simpa [parent?, he] using hp
    have hget : s.get? i x = e.bindings.get? x := by simp [get?, he]
    rw [find, ancestors_of_parent hp hlt, List.findSome?_cons, hget]
    cases hx : e.bindings.get? x with
    | none => simpa [he, hx, hparent, hlt] using ih (Nat.lt_trans hlt hi)
    | some v => simp [he, hx]

theorem label_eq {s : Store ℓ α} {i : Nat} {e : Entry ℓ α} (he : s.entries[i]? = some e) :
    s.label i = .ok e.label := by
  simp [label, entry, he, Except.map]

theorem own_eq {s : Store ℓ α} {i : Nat} (hi : i < s.size) (x : Name) :
    s.own i x = .ok (s.get? i x) := by
  obtain ⟨e, he⟩ := exists_entry hi
  simp [own, entry, get?, he, Except.map]

/-! ## Overwriting an entry -/

/-- Replaces the label and the bindings of an entry. -/
def overwrite (s : Store ℓ α) (id : Nat) (label : ℓ) (bindings : Bindings α) : Store ℓ α :=
  ⟨s.entries.modify id fun e => { e with bindings, label }⟩

@[simp] theorem size_overwrite (s : Store ℓ α) (i : Nat) (l : ℓ) (b : Bindings α) :
    (s.overwrite i l b).size = s.size := by
  simp [overwrite, size]

theorem getElem?_overwrite (s : Store ℓ α) (i j : Nat) (l : ℓ) (b : Bindings α) :
    (s.overwrite i l b).entries[j]? =
      if i = j then s.entries[j]?.map fun e => { e with bindings := b, label := l }
      else s.entries[j]? := by
  simp [overwrite, Array.getElem?_modify]

@[simp] theorem parent?_overwrite (s : Store ℓ α) (i j : Nat) (l : ℓ) (b : Bindings α) :
    (s.overwrite i l b).parent? j = s.parent? j := by
  unfold parent?
  rw [getElem?_overwrite]
  split
  · cases s.entries[j]? <;> rfl
  · rfl

theorem ext_getElem? {s s' : Store ℓ α} (h : ∀ j : Nat, s.entries[j]? = s'.entries[j]?) :
    s = s' := by
  cases s
  cases s'
  exact congrArg Store.mk (Array.ext_getElem? h)

theorem overwrite_overwrite (s : Store ℓ α) (i : Nat) (l l' : ℓ) (b b' : Bindings α) :
    (s.overwrite i l b).overwrite i l' b' = s.overwrite i l' b' := by
  apply ext_getElem?
  intro j
  simp only [getElem?_overwrite]
  split
  · cases s.entries[j]? <;> rfl
  · rfl

theorem overwrite_self {s : Store ℓ α} {i : Nat} {e : Entry ℓ α} (he : s.entries[i]? = some e) :
    s.overwrite i e.label e.bindings = s := by
  apply ext_getElem?
  intro j
  rw [getElem?_overwrite]
  split
  · next h =>
    subst h
    simp [he]
  · rfl

/-- Binding a name overwrites the entry with one binding more. -/
theorem bind_eq {s : Store ℓ α} {i : Nat} {e : Entry ℓ α} (he : s.entries[i]? = some e)
    (x : Name) (v : α) : s.bind i x v = .ok (s.overwrite i e.label (e.bindings.set x v)) := by
  rw [bind, if_pos (lt_size_of_getElem? he)]
  congr 1
  apply ext_getElem?
  intro j
  rw [getElem?_overwrite, Array.getElem?_modify]
  split
  · next h =>
    subst h
    simp [he]
  · rfl

/-! ## Extending a store -/

/-- Adds an entry without bindings. -/
def extend (s : Store ℓ α) (parent : Nat) (label : ℓ) : Store ℓ α :=
  ⟨s.entries.push ⟨.empty, some parent, label⟩⟩

@[simp] theorem size_extend (s : Store ℓ α) (p : Nat) (l : ℓ) :
    (s.extend p l).size = s.size + 1 := by
  simp [extend, size]

theorem getElem?_extend (s : Store ℓ α) (p j : Nat) (l : ℓ) :
    (s.extend p l).entries[j]? =
      if j = s.size then some ⟨.empty, some p, l⟩ else s.entries[j]? := by
  unfold extend size
  rw [Array.getElem?_push]

theorem getElem?_extend_of_lt {s : Store ℓ α} {j : Nat} (hj : j < s.size) (p : Nat) (l : ℓ) :
    (s.extend p l).entries[j]? = s.entries[j]? := by
  rw [getElem?_extend, if_neg (Nat.ne_of_lt hj)]

theorem parent?_extend (s : Store ℓ α) (p j : Nat) (l : ℓ) :
    (s.extend p l).parent? j = if j = s.size then some p else s.parent? j := by
  unfold parent?
  rw [getElem?_extend]
  split <;> rfl

theorem push_eq {s : Store ℓ α} {p : Nat} (hp : p < s.size) (l : ℓ) :
    s.push p l = .ok (s.extend p l, s.size) := by
  rw [push, if_pos hp]
  rfl

theorem Grounded.extend {s : Store ℓ α} (hs : s.Grounded) {p : Nat} (hp : p < s.size) (l : ℓ) :
    (s.extend p l).Grounded := by
  intro i q hq
  rw [parent?_extend] at hq
  split at hq
  · next hi =>
    cases hq
    exact hi ▸ hp
  · exact hs i q hq

theorem getElem?_shrink (entries : Array (Entry ℓ α)) (n j : Nat) :
    (entries.shrink n)[j]? = if j < n then entries[j]? else none := by
  rw [Array.shrink_eq_take, Array.take_eq_extract, Array.getElem?_extract, Nat.sub_zero,
    Nat.zero_add]
  by_cases hj : j < n
  · by_cases hsize : j < entries.size
    · rw [if_pos (Nat.lt_min.mpr ⟨hj, hsize⟩), if_pos hj]
    · rw [if_neg fun h => hsize (Nat.lt_min.mp h).2, if_pos hj,
        Array.getElem?_eq_none (Nat.not_lt.mp hsize)]
  · rw [if_neg fun h => hj (Nat.lt_min.mp h).1, if_neg hj]

/-- Dropping the newest entry gives back the store that it was added to, whatever
    was bound in it meanwhile. -/
theorem truncate_extend {s : Store ℓ α} (hs : s.size ≠ 0) (p : Nat) (l l' : ℓ) (b : Bindings α) :
    ((s.extend p l).overwrite s.size l' b).truncate s.size = .ok s := by
  rw [truncate, if_neg hs]
  congr 1
  apply ext_getElem?
  intro j
  rw [getElem?_shrink]
  by_cases hj : j < s.size
  · have hne : s.size ≠ j := (Nat.ne_of_lt hj).symm
    rw [if_pos hj, getElem?_overwrite, if_neg hne, getElem?_extend_of_lt hj]
  · rw [if_neg hj]
    exact (Array.getElem?_eq_none (Nat.not_lt.mp hj)).symm

end Store

end TreeWalk
