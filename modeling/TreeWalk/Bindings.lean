-- SUMMARY: Finite maps from names, as lists in the order of first binding.
import TreeWalk.Program.Basic

/-! # Bindings

What one entry of a store holds: names with what they are bound to, in the order
in which the names were first bound. Binding a name again replaces what it was
bound to where it stands, so that binding a name to what it is bound to already
changes nothing.
-/

namespace TreeWalk

structure Bindings (α : Type) where
  entries : List (Name × α)

namespace Bindings

variable {α β : Type}

instance : Inhabited (Bindings α) where
  default := ⟨[]⟩

def empty : Bindings α :=
  ⟨[]⟩

/-- What a name is bound to. -/
def get? (b : Bindings α) (x : Name) : Option α :=
  b.entries.lookup x

/-- Replaces the first entry of a name, or adds one at the end. -/
def assign (x : Name) (v : α) : List (Name × α) → List (Name × α)
  | [] => [(x, v)]
  | (y, w) :: rest => if y = x then (x, v) :: rest else (y, w) :: assign x v rest

/-- Binds a name. -/
def set (b : Bindings α) (x : Name) (v : α) : Bindings α :=
  ⟨assign x v b.entries⟩

/-- Changes what the names are bound to. -/
def map (f : α → β) (b : Bindings α) : Bindings β :=
  ⟨b.entries.map fun entry => (entry.1, f entry.2)⟩

@[simp] theorem get?_empty (x : Name) : (empty : Bindings α).get? x = none :=
  rfl

theorem lookup_assign (x y : Name) (v : α) (entries : List (Name × α)) :
    (assign x v entries).lookup y = if y = x then some v else entries.lookup y := by
  induction entries with
  | nil =>
    by_cases h : y = x
    · simp [assign, h]
    · simp [assign, List.lookup_cons, beq_eq_false_iff_ne.mpr h, h]
  | cons entry rest ih =>
    obtain ⟨z, w⟩ := entry
    by_cases hz : z = x
    · subst hz
      by_cases h : y = z
      · simp [assign, h]
      · simp [assign, List.lookup_cons, beq_eq_false_iff_ne.mpr h, h]
    · by_cases h : y = z
      · simp [assign, hz, h]
      · simp [assign, hz, List.lookup_cons, beq_eq_false_iff_ne.mpr h, ih]

theorem get?_set (b : Bindings α) (x y : Name) (v : α) :
    (b.set x v).get? y = if y = x then some v else b.get? y :=
  lookup_assign x y v b.entries

@[simp] theorem get?_set_self (b : Bindings α) (x : Name) (v : α) :
    (b.set x v).get? x = some v := by
  simp [get?_set]

theorem get?_set_of_ne (b : Bindings α) {x y : Name} (h : y ≠ x) (v : α) :
    (b.set x v).get? y = b.get? y := by
  simp [get?_set, h]

theorem get?_map (f : α → β) (b : Bindings α) (x : Name) :
    (b.map f).get? x = (b.get? x).map f := by
  obtain ⟨entries⟩ := b
  simp only [map, get?]
  induction entries with
  | nil => rfl
  | cons entry rest ih =>
    rw [List.map_cons, List.lookup_cons, List.lookup_cons]
    cases x == entry.1 with
    | true => rfl
    | false => exact ih

theorem map_set (f : α → β) (b : Bindings α) (x : Name) (v : α) :
    (b.set x v).map f = (b.map f).set x (f v) := by
  obtain ⟨entries⟩ := b
  simp only [map, set, Bindings.mk.injEq]
  induction entries with
  | nil => rfl
  | cons entry rest ih =>
    obtain ⟨y, w⟩ := entry
    by_cases hy : y = x
    · simp [assign, hy]
    · simp [assign, hy, ih]

theorem map_map_of_forall {f : α → β} {g : β → α} {b : Bindings α}
    (h : ∀ entry ∈ b.entries, g (f entry.2) = entry.2) : (b.map f).map g = b := by
  obtain ⟨entries⟩ := b
  have hentry : ∀ entry ∈ entries, (entry.1, g (f entry.2)) = entry :=
    fun entry hentry => Prod.ext rfl (h entry hentry)
  simp only [map, List.map_map, Bindings.mk.injEq]
  exact (List.map_congr_left hentry).trans (List.map_id' entries)

theorem mem_of_get? {b : Bindings α} {x : Name} {v : α} (h : b.get? x = some v) :
    (x, v) ∈ b.entries := by
  obtain ⟨l₁, l₂, hentries, -⟩ := List.lookup_eq_some_iff.mp h
  rw [hentries]
  exact List.mem_append_right l₁ List.mem_cons_self

theorem mem_set {b : Bindings α} {x : Name} {v : α} {entry : Name × α}
    (h : entry ∈ (b.set x v).entries) : entry = (x, v) ∨ entry ∈ b.entries := by
  obtain ⟨entries⟩ := b
  simp only [set] at h
  induction entries with
  | nil => exact .inl (by simpa [assign] using h)
  | cons first rest ih =>
    obtain ⟨y, w⟩ := first
    by_cases hy : y = x
    · simp only [assign, hy, if_true, List.mem_cons] at h
      exact h.imp_right (List.mem_cons_of_mem _)
    · simp only [assign, hy, if_false, List.mem_cons] at h
      rcases h with h | h
      · exact .inr (h ▸ List.mem_cons_self)
      · exact (ih h).imp_right (List.mem_cons_of_mem _)

end Bindings

end TreeWalk
