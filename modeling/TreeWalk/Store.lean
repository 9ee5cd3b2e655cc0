-- SUMMARY: Stores of chained entries: pushed, looked up along their parents, and dropped again.
import TreeWalk.Bindings

/-! # Stores of chained entries

A store is an array of entries. An entry has bindings of its own and, apart from
the root, a parent among the entries below it: what an entry does not bind, it
leaves to its parent. Entries are named by their index, and dropping the newest
ones makes their indices free for later pushes.

An index can therefore be stale. Every operation that takes one says so with a
`StoreFault`, and what it would have changed stays as it was.
-/

namespace TreeWalk

/-- Why a store refuses an operation. -/
inductive StoreFault where
  /-- there is no entry with this index -/
  | missing (id : Nat)
  /-- this entry does not have its parent below it -/
  | upward (id : Nat)
  /-- no entry would be left, and the root has to stay -/
  | emptied
  deriving DecidableEq, Repr

/-- An entry of a store, with a label of type `ℓ`. -/
structure Entry (ℓ α : Type) where
  bindings : Bindings α
  parent : Option Nat
  label : ℓ

structure Store (ℓ α : Type) where
  entries : Array (Entry ℓ α)

namespace Store

variable {ℓ α : Type}

/-- The index of the entry that every store starts with. -/
def root : Nat := 0

/-- A store that holds the root alone, with no bindings. -/
def new (label : ℓ) : Store ℓ α :=
  ⟨#[⟨.empty, none, label⟩]⟩

/-- How many entries the store holds, and the index of the next one. -/
def size (s : Store ℓ α) : Nat :=
  s.entries.size

def entry (s : Store ℓ α) (id : Nat) : Except StoreFault (Entry ℓ α) :=
  match s.entries[id]? with
  | some e => .ok e
  | none => .error (.missing id)

/-- Adds an entry below which `parent` is looked up. Gives its index. -/
def push (s : Store ℓ α) (parent : Nat) (label : ℓ) : Except StoreFault (Store ℓ α × Nat) :=
  if parent < s.size then
    .ok (⟨s.entries.push ⟨.empty, some parent, label⟩⟩, s.size)
  else
    .error (.missing parent)

/-- Drops the newest entries, down to the given number of them. -/
def truncate (s : Store ℓ α) (size : Nat) : Except StoreFault (Store ℓ α) :=
  if size = 0 then .error .emptied else .ok ⟨s.entries.shrink size⟩

/-- What a name is bound to in the entry itself or else in the nearest of those
    above it. -/
def find (s : Store ℓ α) (id : Nat) (x : Name) : Except StoreFault (Option α) :=
  match s.entries[id]? with
  | none => .error (.missing id)
  | some e =>
      match e.bindings.get? x, e.parent with
      | some v, _ => .ok (some v)
      | none, none => .ok none
      | none, some parent =>
          if parent < id then s.find parent x else .error (.upward id)
termination_by id

/-- Binds a name in the entry itself; no other entry changes. -/
def bind (s : Store ℓ α) (id : Nat) (x : Name) (v : α) : Except StoreFault (Store ℓ α) :=
  if id < s.size then
    .ok ⟨s.entries.modify id fun e => { e with bindings := e.bindings.set x v }⟩
  else
    .error (.missing id)

/-- What the entry itself binds a name to. -/
def own (s : Store ℓ α) (id : Nat) (x : Name) : Except StoreFault (Option α) :=
  (s.entry id).map fun e => e.bindings.get? x

def label (s : Store ℓ α) (id : Nat) : Except StoreFault ℓ :=
  (s.entry id).map fun e => e.label

end Store

end TreeWalk
