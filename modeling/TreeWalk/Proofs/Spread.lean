-- SUMMARY: Children written as a list and children written one by one mean the same.
import TreeWalk.Proofs.Interchange

/-! # Lists of children

An entry with a list stands for the same children as one entry for each item. Writing
some entries of a document out in this way, in as many objects as one likes, below its
root object, leaves the program that the document means, and the report if it means none.

An operator tag over an empty list is refused, and writing it out would remove it. An item
that is a list would have its own items spread out in place of the list.
-/

namespace TreeWalk

/-- `SpreadEntries R es fs` holds if `fs` are the entries `es` with some lists written out
    and with payloads and items that are related by `R`. -/
inductive SpreadEntries (R : Tree → Tree → Prop) :
    List (String × Tree) → List (String × Tree) → Prop
  | nil : SpreadEntries R [] []
  | keep {key : String} {t t' : Tree} {es fs : List (String × Tree)} :
      R t t' → SpreadEntries R es fs → SpreadEntries R ((key, t) :: es) ((key, t') :: fs)
  | spread {tag : Tag} {xs ys : List Tree} {es fs : List (String × Tree)} :
      (xs ≠ [] ∨ tag.isOperator = false) → (∀ x ∈ xs, ∀ items, x ≠ .list items) →
        List.Forall₂ R xs ys → SpreadEntries R es fs →
          SpreadEntries R ((tag.text, .list xs) :: es) (ys.map (Prod.mk tag.text) ++ fs)

/-- `t.Spread t'` holds if `t'` is `t` with some lists of children written out, in any of
    the objects in it. -/
inductive Tree.Spread : Tree → Tree → Prop
  | null : Spread .null .null
  | scalar (v : Value) : Spread (.scalar v) (.scalar v)
  | list {xs ys : List Tree} : List.Forall₂ Spread xs ys → Spread (.list xs) (.list ys)
  | object {es fs : List (String × Tree)} :
      SpreadEntries Spread es fs → Spread (.object es) (.object fs)

/-- The same for a whole document, whose root object keeps its own entries. -/
inductive Tree.SpreadBelow : Tree → Tree → Prop
  | null : SpreadBelow .null .null
  | scalar (v : Value) : SpreadBelow (.scalar v) (.scalar v)
  | list {xs ys : List Tree} : List.Forall₂ Spread xs ys → SpreadBelow (.list xs) (.list ys)
  | object {es fs : List (String × Tree)} :
      List.Forall₂ (fun e f => e.1 = f.1 ∧ Spread e.2 f.2) es fs →
        SpreadBelow (.object es) (.object fs)

mutual

/-- Nothing has to be written out. -/
theorem Tree.Spread.refl : ∀ t, Spread t t
  | .null => .null
  | .scalar v => .scalar v
  | .list xs => .list (Tree.Spread.refl_items xs)
  | .object es => .object (Tree.Spread.refl_entries es)

theorem Tree.Spread.refl_items : ∀ xs, List.Forall₂ Spread xs xs
  | [] => .nil
  | x :: xs => .cons (Tree.Spread.refl x) (Tree.Spread.refl_items xs)

theorem Tree.Spread.refl_entries : ∀ es, SpreadEntries Spread es es
  | [] => .nil
  | (_, t) :: es => .keep (Tree.Spread.refl t) (Tree.Spread.refl_entries es)

end

/-! ## Children of an entry -/

variable {R : Tree → Tree → Prop}

theorem entryChildren_text_list (parent : Tag) {tag : Tag} {xs : List Tree}
    (h : xs ≠ [] ∨ tag.isOperator = false) :
    entryChildren parent tag.text (.list xs) = .ok (xs.map (Prod.mk tag)) := by
  rw [entryChildren_eq (Tag.ofText?_text tag), if_neg]
  · rfl
  · rintro ⟨hxs, htag⟩
    exact h.elim (fun hne => hne hxs) fun hop => absurd (hop.symm.trans htag) Bool.false_ne_true

/-- Entries that are no lists stand for themselves. -/
theorem entriesChildren_append (parent tag : Tag) {xs : List Tree}
    (hxs : ∀ x ∈ xs, ∀ items, x ≠ .list items) (es : List (String × Tree)) :
    entriesChildren parent (xs.map (Prod.mk tag.text) ++ es) =
      do return xs.map (Prod.mk tag) ++ (← entriesChildren parent es) := by
  induction xs with
  | nil => simp
  | cons x xs ih =>
    have hrest := ih fun y hy => hxs y (List.mem_cons_of_mem x hy)
    have hhead := entryChildren_text parent tag (hxs x List.mem_cons_self)
    simp only [List.map_cons, List.cons_append, entriesChildren, hhead, hrest]
    cases entriesChildren parent es <;> rfl

theorem ChildrenRelated.append {a b a' b' : Except ShapeError (List (Tag × Tree))}
    (h : ChildrenRelated R a b) (h' : ChildrenRelated R a' b') :
    ChildrenRelated R (do return (← a) ++ (← a')) (do return (← b) ++ (← b')) := by
  cases h with
  | error e => exact .error e
  | ok h =>
    cases h' with
    | error e => exact .error e
    | ok h' => exact .ok (List.rel_append h h')

theorem Matched.of_items (tag : Tag) {xs ys : List Tree} (h : List.Forall₂ R xs ys) :
    Matched R (xs.map (Prod.mk tag)) (ys.map (Prod.mk tag)) :=
  List.rel_map (fun _ _ h => ⟨rfl, h⟩) h

namespace Tree.Spread

theorem isList_iff {t t' : Tree} (h : t.Spread t') :
    (∃ items, t = .list items) ↔ ∃ items, t' = .list items := by
  cases h <;> simp

theorem ne_list_of_items {xs ys : List Tree} (h : List.Forall₂ Spread xs ys)
    (hxs : ∀ x ∈ xs, ∀ items, x ≠ .list items) : ∀ y ∈ ys, ∀ items, y ≠ .list items := by
  induction h with
  | nil => nofun
  | cons hhead _ ih =>
    intro y hy items heq
    rcases List.mem_cons.mp hy with rfl | hy
    · obtain ⟨items, rfl⟩ := hhead.isList_iff.mpr ⟨items, heq⟩
      exact hxs _ List.mem_cons_self items rfl
    · exact ih (fun x hx => hxs x (List.mem_cons_of_mem _ hx)) y hy items heq

theorem items {t t' : Tree} (h : t.Spread t') : List.Forall₂ Spread t.items t'.items := by
  cases h with
  | null => exact .cons .null .nil
  | scalar v => exact .cons (.scalar v) .nil
  | list hitems => exact hitems
  | object h => exact .cons (.object h) .nil

theorem entryChildren_related (parent : Tag) (key : String) {t t' : Tree} (h : t.Spread t') :
    ChildrenRelated Spread (entryChildren parent key t) (entryChildren parent key t') :=
  .of_alike (entryChildren_alike fun _ _ => h.items.imp fun _ _ h => ⟨rfl, h⟩)

theorem entriesChildren_related (parent : Tag) {es fs : List (String × Tree)}
    (h : SpreadEntries Spread es fs) :
    ChildrenRelated Spread (entriesChildren parent es) (entriesChildren parent fs) := by
  induction h with
  | nil => exact .ok .nil
  | keep hpayload _ ih => exact (entryChildren_related parent _ hpayload).append ih
  | @spread tag xs ys es fs hne hflat hitems _ ih =>
    have hys := ne_list_of_items hitems hflat
    rw [entriesChildren, entryChildren_text_list parent hne,
      entriesChildren_append parent tag hys]
    exact (ChildrenRelated.ok (Matched.of_items tag hitems)).append ih

/-- Writing lists of children out changes nothing that the readers look at. -/
theorem bisimulation : Bisimulation Spread where
  scalar_eq h := by cases h <;> rfl
  children parent h := by
    cases h with
    | null | scalar | list => exact .error _
    | object h => exact entriesChildren_related parent h

end Tree.Spread

/-! ## Documents -/

/-- Writing lists of children out below the root object, in any number of places, changes
    neither the program nor the error. -/
theorem lists_mean_repeated_keys {t t' : Tree} (h : t.SpreadBelow t') :
    Program.ofTree t = Program.ofTree t' := by
  cases h with
  | null | scalar | list => rfl
  | object h =>
    cases h with
    | nil => rfl
    | @cons e f es fs hhead hrest =>
      obtain ⟨key, payload⟩ := e
      obtain ⟨key', payload'⟩ := f
      obtain ⟨rfl, hpayload⟩ := hhead
      cases hrest with
      | nil => simp only [Program.ofTree, Tree.Spread.bisimulation.programOfPayload_eq hpayload]
      | cons hnext hrest => simp [Program.ofTree, hrest.length_eq]

/-- A document that returns a sum, with the children of the sum in lists. -/
def Tree.listsSample : Tree :=
  .object [(Tag.program.text, .object [(Tag.returns.text, .object [(Tag.builtInFunction.text,
    .object [
      (Tag.plus.text, .list [.null]),
      (Tag.name.text, .list []),
      (Tag.expression.text, .list [
        .object [(Tag.number.text, .list [.scalar (.number (.integer 1))])],
        .object [(Tag.boolean.text, .scalar (.boolean true))]])])])])]

/-- The same document with one entry for each child. -/
def Tree.repeatedKeysSample : Tree :=
  .object [(Tag.program.text, .object [(Tag.returns.text, .object [(Tag.builtInFunction.text,
    .object [
      (Tag.plus.text, .null),
      (Tag.expression.text, .object [(Tag.number.text, .scalar (.number (.integer 1)))]),
      (Tag.expression.text, .object [(Tag.boolean.text, .scalar (.boolean true))])])])])]

theorem lists_mean_repeated_keys_sample :
    Tree.listsSample.SpreadBelow Tree.repeatedKeysSample ∧
      Program.ofTree Tree.listsSample = Program.ofTree Tree.repeatedKeysSample := by
  have one : Tree.Spread (.object [(Tag.number.text, .list [.scalar (.number (.integer 1))])])
      (.object [(Tag.number.text, .scalar (.number (.integer 1)))]) :=
    .object (@SpreadEntries.spread _ _ _ [.scalar (.number (.integer 1))] _ _ (.inl (by simp))
      (by simp) (.cons (.scalar _) .nil) .nil)
  have hitems : List.Forall₂ Tree.Spread _ [_, _] :=
    .cons one (.cons (.refl (.object [(Tag.boolean.text, .scalar (.boolean true))])) .nil)
  have operands := @SpreadEntries.spread _ .expression _ _ _ _ (.inl (by simp)) (by simp) hitems
    .nil
  have names := @SpreadEntries.spread _ .name [] [] _ _ (.inr rfl) nofun .nil operands
  have operators := @SpreadEntries.spread _ .plus [.null] [.null] _ _ (.inl (by simp)) (by simp)
    (.cons .null .nil) names
  have hspread : Tree.listsSample.SpreadBelow Tree.repeatedKeysSample :=
    .object (.cons ⟨rfl, .object (.keep (.object (.keep (.object operators) .nil)) .nil)⟩ .nil)
  exact ⟨hspread, lists_mean_repeated_keys hspread⟩

end TreeWalk
