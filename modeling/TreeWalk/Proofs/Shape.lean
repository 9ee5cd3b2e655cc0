-- SUMMARY: What a program is read off: the equations of the readers.
import TreeWalk.Program.Shape
import Mathlib.Data.List.Forall2

/-! # Reading programs off trees

`Expr.ofTree` and `Stmt.ofTree` recurse on children that are known to be smaller. Here are
their equations without that knowledge, in terms of `Tree.children` alone.

They show what the readers look at: whether a tree is a scalar, and which children it has. The
sorters read the payloads of the children through the functions that they are given, so that
one sorter is used on both kinds of children (`Matched`).
-/

namespace TreeWalk

/-! ## Payloads -/

/-- The value that a tree is, if it is a scalar. -/
def Tree.scalar? : Tree → Option Value
  | .scalar v => some v
  | _ => none

theorem nameOf_congr {t t' : Tree} (h : t.scalar? = t'.scalar?) : nameOf t = nameOf t' := by
  cases t <;> cases t' <;> simp_all [Tree.scalar?, nameOf]

theorem parameterOf_congr {t t' : Tree} (h : t.scalar? = t'.scalar?) :
    parameterOf t = parameterOf t' := by
  cases t <;> cases t' <;> simp_all [Tree.scalar?, parameterOf]

theorem scalarOf_congr (tag : Tag) {t t' : Tree} (h : t.scalar? = t'.scalar?) :
    scalarOf tag t = scalarOf tag t' := by
  cases t <;> cases t' <;> simp_all [Tree.scalar?, scalarOf]

theorem onlyName_congr (parent : Tag) (former : Option Name) {t t' : Tree}
    (h : t.scalar? = t'.scalar?) : onlyName parent former t = onlyName parent former t' := by
  rw [onlyName, onlyName, nameOf_congr h]

/-! ## Sorters -/

/-- Two lists of children with the same tags, and with payloads that are related one by
    one. -/
def Matched {α β : Type} (r : α → β → Prop) : List (Tag × α) → List (Tag × β) → Prop :=
  List.Forall₂ fun c d => c.1 = d.1 ∧ r c.2 d.2

namespace Matched

variable {α β : Type} {r s : α → β → Prop} {cs : List (Tag × α)} {ds : List (Tag × β)}

/-- What is known of the payloads may be used to know more of them. -/
theorem imp_of_mem (h : Matched r cs ds) (himp : ∀ c ∈ cs, ∀ d, r c.2 d → s c.2 d) :
    Matched s cs ds := by
  induction h with
  | nil => exact .nil
  | cons hhead _ ih =>
    exact .cons ⟨hhead.1, himp _ List.mem_cons_self _ hhead.2⟩
      (ih fun c hc => himp c (List.mem_cons_of_mem _ hc))

theorem of_map (f : α → β) (cs : List (Tag × α)) :
    Matched (fun c d => f c = d) cs (cs.map fun c => (c.1, f c.2)) :=
  List.forall₂_map_right_iff.mpr (List.forall₂_same.mpr fun _ _ => ⟨rfl, rfl⟩)

/-- Induction on children one by one. -/
@[elab_as_elim]
theorem induct {motive : (cs : List (Tag × α)) → (ds : List (Tag × β)) → Matched r cs ds → Prop}
    (nil : motive [] [] .nil)
    (cons : ∀ tag c d cs ds (hpayload : r c d) (hrest : Matched r cs ds), motive cs ds hrest →
      motive ((tag, c) :: cs) ((tag, d) :: ds) (.cons ⟨rfl, hpayload⟩ hrest))
    {cs : List (Tag × α)} {ds : List (Tag × β)} (h : Matched r cs ds) : motive cs ds h := by
  induction h with
  | nil => exact nil
  | @cons c d cs ds hhead hrest ih =>
    obtain ⟨tag, c⟩ := c
    obtain ⟨tag', d⟩ := d
    have htag : tag = tag' := hhead.1
    subst htag
    exact cons tag c d cs ds hhead.2 hrest ih

section Sorters

variable (tree : α → Tree) (tree' : β → Tree) {expr : α → Except ShapeError Expr}
  {expr' : β → Except ShapeError Expr} {stmt : Tag → α → Except ShapeError Stmt}
  {stmt' : Tag → β → Except ShapeError Stmt}

theorem callParts_eq (h : Matched r cs ds)
    (htree : ∀ c d, r c d → (tree c).scalar? = (tree' d).scalar?)
    (hexpr : ∀ c d, r c d → expr c = expr' d) (name : Option Name) :
    callParts tree expr name cs = callParts tree' expr' name ds := by
  induction h using Matched.induct generalizing name with
  | nil => rfl
  | cons tag c d _ _ hpayload _ ih =>
    cases tag with
    | name =>
      simp only [callParts]
      rw [onlyName_congr _ _ (htree c d hpayload)]
      exact bind_congr ih
    | expression =>
      simp only [callParts]
      rw [hexpr c d hpayload, ih name]
    | _ => rfl

theorem builtInParts_eq (h : Matched r cs ds) (hexpr : ∀ c d, r c d → expr c = expr' d) :
    builtInParts expr cs = builtInParts expr' ds := by
  induction h using Matched.induct with
  | nil => rfl
  | cons tag c d _ _ hpayload _ ih =>
    cases tag with
    | expression =>
      simp only [builtInParts]
      rw [hexpr c d hpayload, ih]
    | equality | plus | minus =>
      simp only [builtInParts]
      rw [ih]
    | _ => rfl

theorem definitionParts_eq (h : Matched r cs ds)
    (htree : ∀ c d, r c d → (tree c).scalar? = (tree' d).scalar?)
    (hstmt : ∀ tag c d, r c d → stmt tag c = stmt' tag d) (name : Option Name) :
    definitionParts tree stmt name cs = definitionParts tree' stmt' name ds := by
  induction h using Matched.induct generalizing name with
  | nil => rfl
  | cons tag c d _ _ hpayload _ ih =>
    cases tag with
    | name =>
      simp only [definitionParts]
      rw [onlyName_congr _ _ (htree c d hpayload)]
      exact bind_congr ih
    | parameter =>
      simp only [definitionParts]
      rw [parameterOf_congr (htree c d hpayload), ih name]
    | _ =>
      simp only [definitionParts]
      rw [hstmt _ c d hpayload, ih name]

theorem conditionalParts_eq (h : Matched r cs ds) (hexpr : ∀ c d, r c d → expr c = expr' d)
    (hstmt : ∀ tag c d, r c d → stmt tag c = stmt' tag d) :
    conditionalParts expr stmt cs = conditionalParts expr' stmt' ds := by
  induction h using Matched.induct with
  | nil => rfl
  | cons tag c d _ _ hpayload _ ih =>
    cases tag with
    | expression =>
      simp only [conditionalParts]
      rw [hexpr c d hpayload, ih]
    | _ =>
      simp only [conditionalParts]
      rw [hstmt _ c d hpayload, ih]

end Sorters

end Matched

/-! ## Equations of the readers -/

theorem Tree.childrenWithin_bind {β : Type} (t : Tree) (parent : Tag)
    {f : List (Tag × t.Below) → Except ShapeError β}
    {g : List (Tag × Tree) → Except ShapeError β}
    (h : ∀ cs ds, Matched (fun c d => c.1 = d) cs ds → f cs = g ds) :
    t.childrenWithin parent >>= f = t.children parent >>= g := by
  rw [← t.map_childrenWithin parent]
  cases t.childrenWithin parent with
  | error e => rfl
  | ok cs => exact h _ _ (Matched.of_map (fun c => c.1) cs)

/-- The expression that the children of an expression node are read as. -/
def Expr.ofChildren : List (Tag × Tree) → Except ShapeError Expr
  | [(.expression, c)] => ofTree c
  | [(.number, c)] => (scalarOf .number c).map literal
  | [(.string, c)] => (scalarOf .string c).map literal
  | [(.boolean, c)] => (scalarOf .boolean c).map literal
  | [(.parameter, c)] => (scalarOf .parameter c).map parameter
  | [(.variableAccess, c)] => do
      let name ← accessParts id none (← c.children .variableAccess)
      return access name
  | [(.functionCall, c)] => do
      let (name, arguments) ← callParts id ofTree none (← c.children .functionCall)
      return call name arguments
  | [(.builtInFunction, c)] => do
      let (operators, operands) ← builtInParts ofTree (← c.children .builtInFunction)
      return builtIn operators operands
  | [(tag, _)] => .ok (invalid tag)
  | cs => .ok (malformed cs.length)

theorem Expr.ofTree_eq (t : Tree) :
    ofTree t = t.children .expression >>= Expr.ofChildren := by
  rw [ofTree]
  refine t.childrenWithin_bind _ fun cs ds h => ?_
  cases h with
  | nil => rfl
  | @cons c d cs ds hhead hrest =>
    obtain ⟨tag, c⟩ := c
    obtain ⟨tag', d⟩ := d
    obtain ⟨rfl, rfl⟩ := hhead
    cases hrest with
    | nil =>
      cases tag with
      | functionCall =>
        refine c.1.childrenWithin_bind _ fun cs ds h => ?_
        rw [h.callParts_eq _ id (fun _ _ h => congrArg Tree.scalar? h)
          fun _ _ h => congrArg ofTree h]
      | builtInFunction =>
        refine c.1.childrenWithin_bind _ fun cs ds h => ?_
        rw [h.builtInParts_eq fun _ _ h => congrArg ofTree h]
      | _ => rfl
    | cons hnext hrest =>
      simp [ofChildren, hrest.length_eq]

theorem Stmt.ofTree_statement (t : Tree) :
    ofTree .statement t = t.children .statement >>= fun
      | [(tag, c)] => ofTree tag c
      | cs => .ok (malformed cs.length) := by
  rw [ofTree]
  refine t.childrenWithin_bind _ fun cs ds h => ?_
  cases h with
  | nil => rfl
  | @cons c d cs ds hhead hrest =>
    obtain ⟨tag, c⟩ := c
    obtain ⟨tag', d⟩ := d
    obtain ⟨rfl, rfl⟩ := hhead
    cases hrest with
    | nil => rfl
    | cons hnext hrest => simp [hrest.length_eq]

theorem Stmt.ofTree_functionDefinition (t : Tree) :
    ofTree .functionDefinition t = t.children .functionDefinition >>= fun cs => do
      let (name, parameters, body) ← definitionParts id ofTree none cs
      return functionDefinition name parameters body := by
  rw [ofTree]
  refine t.childrenWithin_bind _ fun cs ds h => ?_
  rw [h.definitionParts_eq _ id (fun _ _ h => congrArg Tree.scalar? h)
    fun tag _ _ h => congrArg (ofTree tag) h]

theorem Stmt.ofTree_conditional (t : Tree) :
    ofTree .conditional t = t.children .conditional >>= fun cs => do
      let (conditions, body) ← conditionalParts Expr.ofTree ofTree cs
      return conditional conditions body := by
  rw [ofTree]
  refine t.childrenWithin_bind _ fun cs ds h => ?_
  rw [h.conditionalParts_eq (fun _ _ h => congrArg Expr.ofTree h)
    fun tag _ _ h => congrArg (ofTree tag) h]

end TreeWalk
