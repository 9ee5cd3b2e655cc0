-- SUMMARY: Whatever has been pushed, dropped and bound before, a store is a map of chained entries.
import Mathlib.Logic.Relation
import TreeWalk.Proofs.Ancestry
import TreeWalk.Closure

/-! # Histories of stores

The indices of a store are used again: what is dropped makes room for what is pushed next, anywhere
below the entries that are left, and entries that others have been pushed on may still be bound
names in. None of this matters for lookups. Along every history the entries stay a tree in which
parents lie below their children (`Rooted`), and that is enough for each operation to do to lookups
what it should and nothing else.
-/

namespace TreeWalk

namespace Store

variable {ℓ α : Type}

/-! ## Chains -/

/-- An entry and the entries above it, the nearest first. -/
def chain (s : Store ℓ α) (t : Nat) : List Nat :=
  t :: s.ancestors t

/-- Entry `e` is where a lookup of `x` from `t` would end if `e` bound it: it is on
    the chain, and no nearer entry binds the name. -/
def Sees (s : Store ℓ α) (t e : Nat) (x : Name) : Prop :=
  ∃ nearer further, s.chain t = nearer ++ e :: further ∧ ∀ j ∈ nearer, s.get? j x = none

/-- The tree of entries: the root has no parent, and every other entry has one
    below itself. -/
structure Rooted (s : Store ℓ α) : Prop where
  nonempty : 0 < s.size
  root : s.parent? Store.root = none
  parent : ∀ i < s.size, i ≠ Store.root → ∃ p < i, s.parent? i = some p

theorem lt_size_of_parent? {s : Store ℓ α} {i p : Nat} (h : s.parent? i = some p) : i < s.size := by
  obtain ⟨e, he, -⟩ := Option.bind_eq_some_iff.mp h
  exact lt_size_of_getElem? he

theorem Rooted.grounded {s : Store ℓ α} (hs : s.Rooted) : s.Grounded := by
  intro i p hp
  have hroot : i ≠ Store.root := by
    rintro rfl
    cases hs.root.symm.trans hp
  obtain ⟨q, hlt, hq⟩ := hs.parent i (lt_size_of_parent? hp) hroot
  cases hp.symm.trans hq
  exact hlt

/-! ## Operations -/

/-- Keeps the oldest entries only. -/
def keep (s : Store ℓ α) (n : Nat) : Store ℓ α :=
  ⟨s.entries.shrink n⟩

@[simp] theorem size_keep (s : Store ℓ α) (n : Nat) : (s.keep n).size = min n s.size := by
  simp [keep, size]

theorem getElem?_keep_of_lt (s : Store ℓ α) {n j : Nat} (hj : j < n) :
    (s.keep n).entries[j]? = s.entries[j]? := by
  rw [keep, getElem?_shrink, if_pos hj]

theorem parent?_keep_of_lt (s : Store ℓ α) {n j : Nat} (hj : j < n) :
    (s.keep n).parent? j = s.parent? j := by
  rw [parent?, parent?, getElem?_keep_of_lt s hj]

theorem truncate_eq {s : Store ℓ α} {n : Nat} (hn : n ≠ 0) : s.truncate n = .ok (s.keep n) :=
  if_neg hn

theorem get?_overwrite {s : Store ℓ α} {e : Nat} {entry : Entry ℓ α}
    (he : s.entries[e]? = some entry) (x : Name) (v : α) (j : Nat) (y : Name) :
    (s.overwrite e entry.label (entry.bindings.set x v)).get? j y =
      if j = e ∧ y = x then some v else s.get? j y := by
  rw [get?, get?, getElem?_overwrite]
  by_cases hj : e = j
  · subst hj
    simp [he, Bindings.get?_set]
  · rw [if_neg hj, if_neg fun h => hj h.1.symm]

theorem get?_new (l : ℓ) (j : Nat) (x : Name) : (new l : Store ℓ α).get? j x = none := by
  cases j <;> rfl

theorem get?_extend (s : Store ℓ α) (p : Nat) (l : ℓ) (j : Nat) (x : Name) :
    (s.extend p l).get? j x = s.get? j x := by
  rw [get?, get?, getElem?_extend]
  split
  · next hj =>
    have hnone : s.entries[j]? = none := Array.getElem?_eq_none (Nat.le_of_eq hj.symm)
    rw [hnone]
    rfl
  · rfl

theorem get?_of_get?_keep {s : Store ℓ α} {n j : Nat} {x : Name} {v : α}
    (h : (s.keep n).get? j x = some v) : s.get? j x = some v := by
  rw [get?, keep, getElem?_shrink] at h
  split at h
  · exact h
  · cases h

theorem label_overwrite {s : Store ℓ α} {e : Nat} {entry : Entry ℓ α}
    (he : s.entries[e]? = some entry) (b : Bindings α) (j : Nat) :
    (s.overwrite e entry.label b).label j = s.label j := by
  rw [label, label, Store.entry, Store.entry, getElem?_overwrite]
  by_cases hj : e = j
  · subst hj
    simp [he, Except.map]
  · rw [if_neg hj]

theorem label_congr {s s' : Store ℓ α} {t : Nat} (h : s'.entries[t]? = s.entries[t]?) :
    s'.label t = s.label t := by
  rw [label, label, Store.entry, Store.entry, h]

/-- A lookup depends on nothing but the entries up to the one it starts at. -/
theorem find_congr {s s' : Store ℓ α} {t : Nat} (h : ∀ j ≤ t, s'.entries[j]? = s.entries[j]?)
    (x : Name) : s'.find t x = s.find t x := by
  induction t using Nat.strongRecOn with
  | ind t ih =>
    rw [find, find, h t (Nat.le_refl t)]
    cases s.entries[t]? with
    | none => rfl
    | some e =>
      cases hx : e.bindings.get? x with
      | some v => simp [hx]
      | none =>
        cases hparent : e.parent with
        | none => simp [hx, hparent]
        | some p =>
          simp only [hx, hparent]
          split
          · next hlt => exact ih p hlt fun j hj => h j (Nat.le_trans hj (Nat.le_of_lt hlt))
          · rfl

theorem getElem?_extend_self (s : Store ℓ α) (p : Nat) (l : ℓ) :
    (s.extend p l).entries[s.size]? = some ⟨.empty, some p, l⟩ := by
  rw [getElem?_extend, if_pos rfl]

theorem find_extend_self {s : Store ℓ α} {p : Nat} (hp : p < s.size) (l : ℓ) (x : Name) :
    (s.extend p l).find s.size x = s.find p x := by
  have hparent : (s.extend p l).find p x = s.find p x :=
    find_congr (fun j hj => getElem?_extend_of_lt (Nat.lt_of_le_of_lt hj hp) p l) x
  rw [find, getElem?_extend_self]
  simp [hp, hparent]

/-! ## Binding -/

theorem sees_self (s : Store ℓ α) (t : Nat) (x : Name) : s.Sees t t x :=
  ⟨[], s.ancestors t, rfl, fun _ h => absurd h List.not_mem_nil⟩

/-- Searching a list in which one more place answers: nothing in front of it does. -/
theorem findSome?_of_first {f g : Nat → Option α} {e : Nat} {v : α} {nearer : List Nat}
    (hg : ∀ j, g j = if j = e then some v else f j) (hnearer : ∀ j ∈ nearer, f j = none)
    (further : List Nat) : (nearer ++ e :: further).findSome? g = some v := by
  induction nearer with
  | nil => simp [hg]
  | cons j nearer ih =>
    have hrest := ih fun k hk => hnearer k (List.mem_cons_of_mem j hk)
    rw [List.cons_append, List.findSome?_cons, hg j]
    by_cases hj : j = e
    · rw [if_pos hj]
    · rw [if_neg hj, hnearer j List.mem_cons_self]
      exact hrest

/-- Searching a list in which one more place answers: something in front of it does,
    or it is not there at all. -/
theorem findSome?_of_not_first {f g : Nat → Option α} {e : Nat} {v : α} {places : List Nat}
    (hg : ∀ j, g j = if j = e then some v else f j)
    (h : ¬ ∃ nearer further, places = nearer ++ e :: further ∧ ∀ j ∈ nearer, f j = none) :
    places.findSome? g = places.findSome? f := by
  induction places with
  | nil => rfl
  | cons j places ih =>
    by_cases hj : j = e
    · exact absurd ⟨[], places, by rw [hj]; rfl, fun _ h => absurd h List.not_mem_nil⟩ h
    · rw [List.findSome?_cons, List.findSome?_cons, hg j, if_neg hj]
      cases hfound : f j with
      | some w => rfl
      | none =>
        refine ih ?_
        rintro ⟨nearer, further, rfl, hnearer⟩
        refine h ⟨j :: nearer, further, rfl, ?_⟩
        exact List.forall_mem_cons.mpr ⟨hfound, hnearer⟩

open scoped Classical in
/-- What binding `x` to `v` in entry `e` does to lookups: those of `x` that the entry
    is seen by give `v`, and all others what they gave before. -/
def Binds (s s' : Store ℓ α) (e : Nat) (x : Name) (v : α) : Prop :=
  ∀ t < s.size, ∀ y,
    s'.find t y = if y = x ∧ s.Sees t e x then .ok (some v) else s.find t y

theorem Grounded.binds {s : Store ℓ α} (hs : s.Grounded) {e : Nat} {entry : Entry ℓ α}
    (he : s.entries[e]? = some entry) (x : Name) (v : α) :
    s.Binds (s.overwrite e entry.label (entry.bindings.set x v)) e x v := by
  intro t ht y
  have hs' : (s.overwrite e entry.label (entry.bindings.set x v)).Grounded := by
    intro i p hp
    exact hs i p (parent?_overwrite s e i _ _ ▸ hp)
  have hchain : (s.overwrite e entry.label (entry.bindings.set x v)).ancestors t =
      s.ancestors t :=
    hs.ancestors_congr fun j _ => parent?_overwrite s e j _ _
  rw [hs'.find_eq (by rwa [size_overwrite]), hs.find_eq ht, hchain]
  simp only [get?_overwrite he]
  split
  · next hseen =>
    obtain ⟨rfl, nearer, further, hsplit, hnearer⟩ := hseen
    rw [← chain, hsplit]
    exact congrArg Except.ok (findSome?_of_first (by simp) hnearer further)
  · next hunseen =>
    by_cases hy : y = x
    · subst hy
      simp only [and_true]
      exact congrArg Except.ok
        (findSome?_of_not_first (fun _ => rfl) fun hsees => hunseen ⟨rfl, hsees⟩)
    · simp [hy]

/-! ## The tree of entries -/

theorem rooted_new (l : ℓ) : (new l : Store ℓ α).Rooted where
  nonempty := Nat.one_pos
  root := rfl
  parent _ hi hroot := absurd (Nat.lt_one_iff.mp hi) hroot

theorem Rooted.extend {s : Store ℓ α} (hs : s.Rooted) {p : Nat} (hp : p < s.size) (l : ℓ) :
    (s.extend p l).Rooted where
  nonempty := by
    rw [size_extend]
    exact Nat.succ_pos _
  root := by
    have hold : Store.root ≠ s.size := Nat.ne_of_lt hs.nonempty
    rw [parent?_extend, if_neg hold]
    exact hs.root
  parent i hi hroot := by
    rw [size_extend] at hi
    rw [parent?_extend]
    split
    · next hnew => exact ⟨p, hnew ▸ hp, rfl⟩
    · next hold => exact hs.parent i (Nat.lt_of_le_of_ne (Nat.le_of_lt_succ hi) hold) hroot

theorem Rooted.keep {s : Store ℓ α} (hs : s.Rooted) {n : Nat} (hn : n ≠ 0) :
    (s.keep n).Rooted where
  nonempty := by
    rw [size_keep]
    exact Nat.lt_min.mpr ⟨Nat.pos_of_ne_zero hn, hs.nonempty⟩
  root := by
    have hkept : Store.root < n := Nat.pos_of_ne_zero hn
    rw [parent?_keep_of_lt s hkept]
    exact hs.root
  parent i hi hroot := by
    rw [size_keep] at hi
    obtain ⟨hn, hsize⟩ := Nat.lt_min.mp hi
    rw [parent?_keep_of_lt s hn]
    exact hs.parent i hsize hroot

theorem Rooted.overwrite {s : Store ℓ α} (hs : s.Rooted) (e : Nat) (l : ℓ) (b : Bindings α) :
    (s.overwrite e l b).Rooted where
  nonempty := by
    rw [size_overwrite]
    exact hs.nonempty
  root := by
    rw [parent?_overwrite]
    exact hs.root
  parent i hi hroot := by
    rw [size_overwrite] at hi
    rw [parent?_overwrite]
    exact hs.parent i hi hroot

/-! ## Histories -/

/-- One operation that is not refused. -/
inductive Step (s : Store ℓ α) : Store ℓ α → Prop
  | push {parent id : Nat} {l : ℓ} {s' : Store ℓ α} (h : s.push parent l = .ok (s', id)) : Step s s'
  | truncate {n : Nat} {s' : Store ℓ α} (h : s.truncate n = .ok s') : Step s s'
  | bind {e : Nat} {x : Name} {v : α} {s' : Store ℓ α} (h : s.bind e x v = .ok s') : Step s s'

theorem push_eq_ok_iff {s s' : Store ℓ α} {parent id : Nat} {l : ℓ} :
    s.push parent l = .ok (s', id) ↔
      parent < s.size ∧ s' = s.extend parent l ∧ id = s.size := by
  constructor
  · intro h
    by_cases hp : parent < s.size
    · rw [push_eq hp] at h
      cases h
      exact ⟨hp, rfl, rfl⟩
    · rw [push, if_neg hp] at h
      cases h
  · rintro ⟨hp, rfl, rfl⟩
    exact push_eq hp l

theorem truncate_eq_ok_iff {s s' : Store ℓ α} {n : Nat} :
    s.truncate n = .ok s' ↔ n ≠ 0 ∧ s' = s.keep n := by
  constructor
  · intro h
    by_cases hn : n = 0
    · rw [truncate, if_pos hn] at h
      cases h
    · rw [truncate_eq hn] at h
      cases h
      exact ⟨hn, rfl⟩
  · rintro ⟨hn, rfl⟩
    exact truncate_eq hn

theorem bind_eq_ok_iff {s s' : Store ℓ α} {e : Nat} {x : Name} {v : α} :
    s.bind e x v = .ok s' ↔
      ∃ entry, s.entries[e]? = some entry ∧
        s' = s.overwrite e entry.label (entry.bindings.set x v) := by
  constructor
  · intro h
    by_cases he : e < s.size
    · obtain ⟨entry, hentry⟩ := exists_entry he
      rw [bind_eq hentry] at h
      cases h
      exact ⟨entry, hentry, rfl⟩
    · rw [bind, if_neg he] at h
      cases h
  · rintro ⟨entry, hentry, rfl⟩
    exact bind_eq hentry x v

theorem Rooted.step {s s' : Store ℓ α} (hs : s.Rooted) (h : s.Step s') : s'.Rooted := by
  cases h with
  | push h =>
    obtain ⟨hp, rfl, -⟩ := push_eq_ok_iff.mp h
    exact hs.extend hp _
  | truncate h =>
    obtain ⟨hn, rfl⟩ := truncate_eq_ok_iff.mp h
    exact hs.keep hn
  | bind h =>
    obtain ⟨entry, -, rfl⟩ := bind_eq_ok_iff.mp h
    exact hs.overwrite _ _ _

theorem Rooted.steps {s s' : Store ℓ α} (hs : s.Rooted) (h : Relation.ReflTransGen Step s s') :
    s'.Rooted := by
  induction h with
  | refl => exact hs
  | tail _ hstep ih => exact ih.step hstep

/-! ## Maps of chained entries -/

/-- Looks the same from this entry, whatever is looked up. -/
def SameAt (s s' : Store ℓ α) (t : Nat) : Prop :=
  (∀ x, s'.find t x = s.find t x) ∧ s'.label t = s.label t

/-- What makes a store a map of chained entries, as far as lookups can tell. -/
structure IsChainedMap (s : Store ℓ α) : Prop where
  root : s.parent? Store.root = none
  parent : ∀ i < s.size, i ≠ Store.root → ∃ p < i, s.parent? i = some p
  /-- Lookups come to an end, with what the nearest entry of the chain binds. -/
  find : ∀ t < s.size, ∀ x, s.find t x = .ok ((s.chain t).findSome? fun j => s.get? j x)
  /-- What is bound is found where the entry is seen, and nowhere else. -/
  bind : ∀ e < s.size, ∀ x v, ∃ s', s.bind e x v = .ok s' ∧ s'.size = s.size ∧
    s.Binds s' e x v ∧ ∀ t, s'.label t = s.label t
  /-- The new entry has the next index and sees what its parent sees, whoever had that index
      before. -/
  push : ∀ p < s.size, ∀ l, ∃ s', s.push p l = .ok (s', s.size) ∧ s'.size = s.size + 1 ∧
    (∀ t < s.size, s.SameAt s' t) ∧ (∀ x, s'.find s.size x = s.find p x) ∧
      s'.label s.size = .ok l
  /-- What is kept does not notice what is dropped. The indices of the latter are free again. -/
  truncate : ∀ n, n ≠ 0 → ∃ s', s.truncate n = .ok s' ∧ s'.size = min n s.size ∧
    ∀ t < n, s.SameAt s' t

theorem sameAt_of_entries {s s' : Store ℓ α} {t : Nat}
    (h : ∀ j ≤ t, s'.entries[j]? = s.entries[j]?) : s.SameAt s' t :=
  ⟨find_congr h, label_congr (h t (Nat.le_refl t))⟩

theorem Rooted.isChainedMap {s : Store ℓ α} (hs : s.Rooted) : s.IsChainedMap where
  root := hs.root
  parent := hs.parent
  find _ ht x := hs.grounded.find_eq ht x
  bind e he x v := by
    obtain ⟨entry, hentry⟩ := exists_entry he
    exact ⟨_, bind_eq hentry x v, size_overwrite s e _ _, hs.grounded.binds hentry x v,
      label_overwrite hentry _⟩
  push p hp l := by
    refine ⟨s.extend p l, push_eq hp l, size_extend s p l, fun t ht => ?_, find_extend_self hp l,
      label_eq (getElem?_extend_self s p l)⟩
    exact sameAt_of_entries fun j hj => getElem?_extend_of_lt (Nat.lt_of_le_of_lt hj ht) p l
  truncate n hn := by
    refine ⟨s.keep n, truncate_eq hn, size_keep s n, fun t ht => ?_⟩
    exact sameAt_of_entries fun j hj => getElem?_keep_of_lt s (Nat.lt_of_le_of_lt hj ht)

end Store

/-- Scopes that came about by operations that were not refused. -/
def Scopes.Reachable {α : Type} (s : Scopes α) : Prop :=
  Relation.ReflTransGen Store.Step (Store.new none) s

/-! ## Function tables -/

namespace Tables

/-- One operation on function tables that is not refused. -/
inductive Step (t : Tables) : Tables → Prop
  | push {parent id : Nat} {t' : Tables} (h : t.push parent () = .ok (t', id)) : Step t t'
  | truncate {n : Nat} {t' : Tables} (h : Store.truncate t n = .ok t') : Step t t'
  | define {table : Nat} {name : Name} {parameters : List Name} {body : List Stmt} {scope : Nat}
      {t' : Tables} {former : Option Closure}
      (h : t.define table name parameters body scope = .ok (t', former)) : Step t t'

/-- Tables that came about by operations that were not refused. -/
def Reachable (t : Tables) : Prop :=
  Relation.ReflTransGen Step new t

/-- Every function is kept under its own name in its own table. -/
def Filed (t : Tables) : Prop :=
  ∀ i x f, t.get? i x = some f → f.name = x ∧ f.table = i

theorem define_eq {t : Tables} {table : Nat} {entry : Entry Unit Closure}
    (he : t.entries[table]? = some entry) (name : Name) (parameters : List Name)
    (body : List Stmt) (scope : Nat) :
    t.define table name parameters body scope =
      .ok (t.overwrite table entry.label
        (entry.bindings.set name { name, parameters, body, scope, table }), t.get? table name) := by
  rw [define, Store.own_eq (Store.lt_size_of_getElem? he), Store.bind_eq he]
  rfl

theorem define_eq_ok_iff {t t' : Tables} {table : Nat} {name : Name} {parameters : List Name}
    {body : List Stmt} {scope : Nat} {former : Option Closure} :
    t.define table name parameters body scope = .ok (t', former) ↔
      ∃ entry, t.entries[table]? = some entry ∧ former = t.get? table name ∧
        t' = t.overwrite table entry.label
          (entry.bindings.set name { name, parameters, body, scope, table }) := by
  constructor
  · intro h
    cases hentry : t.entries[table]? with
    | none =>
      rw [define, Store.own, Store.entry, hentry] at h
      cases h
    | some entry =>
      rw [define_eq hentry] at h
      cases h
      exact ⟨entry, rfl, rfl, rfl⟩
  · rintro ⟨entry, hentry, rfl, rfl⟩
    exact define_eq hentry name parameters body scope

theorem Filed.step {t t' : Tables} (ht : t.Filed) (h : t.Step t') : t'.Filed := by
  intro i x f hf
  cases h with
  | push h =>
    obtain ⟨-, rfl, -⟩ := Store.push_eq_ok_iff.mp h
    rw [Store.get?_extend] at hf
    exact ht i x f hf
  | truncate h =>
    obtain ⟨-, rfl⟩ := Store.truncate_eq_ok_iff.mp h
    exact ht i x f (Store.get?_of_get?_keep hf)
  | define h =>
    obtain ⟨entry, hentry, -, rfl⟩ := define_eq_ok_iff.mp h
    rw [Store.get?_overwrite hentry] at hf
    split at hf
    · next hplace =>
      obtain ⟨rfl, rfl⟩ := hplace
      cases hf
      exact ⟨rfl, rfl⟩
    · exact ht i x f hf

theorem Step.toStore {t t' : Tables} (h : t.Step t') : Store.Step t t' := by
  cases h with
  | push h => exact .push h
  | truncate h => exact .truncate h
  | define h =>
    obtain ⟨entry, hentry, -, rfl⟩ := define_eq_ok_iff.mp h
    exact .bind (Store.bind_eq hentry _ _)

theorem Reachable.rooted {t : Tables} (ht : t.Reachable) : Store.Rooted t := by
  have hsteps := Relation.ReflTransGen.mono (fun _ _ hstep => Step.toStore hstep) _ _ ht
  exact (Store.rooted_new ()).steps hsteps

theorem Reachable.filed {t : Tables} (ht : t.Reachable) : t.Filed := by
  induction ht with
  | refl =>
    intro i x f hf
    rw [new, Store.get?_new] at hf
    cases hf
  | tail _ hstep ih => exact ih.step hstep

/-- What is more of function tables than of other stores. -/
structure Defines (t : Tables) : Prop where
  /-- A function that is found has the name it was looked up by, and the table that it
      was found in. -/
  found : ∀ i < t.size, ∀ x f, t.find i x = .ok (some f) →
    f.name = x ∧ t.Sees i f.table x ∧ t.get? f.table x = some f
  /-- A definition takes the place of a former one as a whole. -/
  define : ∀ table < t.size, ∀ name parameters body scope, ∃ t',
    t.define table name parameters body scope = .ok (t', t.get? table name) ∧ t'.size = t.size ∧
      t.Binds t' table name { name, parameters, body, scope, table } ∧
      t'.find table name = .ok (some { name, parameters, body, scope, table })

theorem Reachable.defines {t : Tables} (ht : t.Reachable) : t.Defines where
  found i hi x f hf := by
    rw [ht.rooted.grounded.find_eq hi, Except.ok.injEq, List.findSome?_eq_some_iff] at hf
    obtain ⟨nearer, e, further, hchain, he, hnearer⟩ := hf
    obtain ⟨hname, rfl⟩ := ht.filed e x f he
    exact ⟨hname, ⟨nearer, further, hchain, hnearer⟩, he⟩
  define table htable name parameters body scope := by
    obtain ⟨entry, hentry⟩ := Store.exists_entry htable
    have hbinds := ht.rooted.grounded.binds hentry name
      { name, parameters, body, scope, table : Closure }
    refine ⟨_, define_eq hentry name parameters body scope, Store.size_overwrite t table _ _,
      hbinds, ?_⟩
    rw [hbinds table htable name, if_pos ⟨rfl, Store.sees_self t table name⟩]

end Tables

/-- Whatever history of operations scopes and function tables have, they are maps of
    chained entries. Function tables besides give functions with the name and the
    table that they were found by. -/
theorem stores_are_chained_maps :
    (∀ {α : Type} (s : Scopes α), s.Reachable → s.IsChainedMap) ∧
    ∀ t : Tables, t.Reachable → t.IsChainedMap ∧ t.Defines := by
  refine ⟨?_, ?_⟩
  · intro α s hs
    exact ((Store.rooted_new none).steps hs).isChainedMap
  · intro t ht
    exact ⟨ht.rooted.isChainedMap, ht.defines⟩

/-- Scopes in which the index of one call's scope is used again for that of another. -/
def Scopes.reused : Scopes Nat :=
  (((Store.new none).extend Store.root (some "f")).keep 1).extend Store.root (some "g")

/-- Tables in which a table has been dropped again. -/
def Tables.dropped : Tables :=
  (Store.extend Tables.new Store.root ()).keep 1

/-- Tables in which its index is used again, below a table with a function. -/
def Tables.reused : Tables :=
  let f : Closure := { name := "f", parameters := [], body := [], scope := 0, table := 0 }
  (dropped.overwrite Store.root () (Bindings.empty.set "f" f)).extend Store.root ()

theorem stores_are_chained_maps_reused :
    Scopes.reused.Reachable ∧ Scopes.reused.IsChainedMap ∧
      Tables.reused.Reachable ∧ Tables.reused.IsChainedMap ∧ Tables.reused.Defines := by
  have hscopes : Scopes.reused.Reachable :=
    .tail (.tail (.tail .refl
      (.push (Store.push_eq (by decide) _)))
      (.truncate (Store.truncate_eq (by decide))))
      (.push (Store.push_eq (by decide) _))
  have hdropped : Tables.dropped.Reachable := by
    have hpush : Tables.Step Tables.new (Store.extend Tables.new Store.root ()) :=
      .push (Store.push_eq (by decide) ())
    exact .tail (.tail .refl hpush) (.truncate (Store.truncate_eq (by decide)))
  have hroot : Tables.dropped.entries[Store.root]? = some ⟨.empty, none, ()⟩ := rfl
  have htables : Tables.reused.Reachable :=
    .tail (.tail hdropped (.define (Tables.define_eq hroot "f" [] [] 0)))
      (.push (Store.push_eq (by decide) ()))
  exact ⟨hscopes, stores_are_chained_maps.1 _ hscopes, htables,
    stores_are_chained_maps.2 _ htables⟩

end TreeWalk
