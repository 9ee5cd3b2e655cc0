-- SUMMARY: When one tree may stand for another: children, nodes and results that are read alike.
import TreeWalk.Proofs.Reading
import TreeWalk.Proofs.Site

/-! # Trees that stand for one another

A reader looks at a child through what its parent makes of it. Two children that a parent
reads alike may be exchanged in any list of children (`ReadAlike.of_forall₂`), and two nodes
whose children are read alike may be exchanged under their tag (`SameUnder.of_children`). What
a rewriting of documents does to the program is thereby a matter of single children.

How much of an error counts is a parameter, the `view`. With `id` the errors have to be the
same. If nothing of an error counts, results are alike as soon as both readers fail.
-/

namespace TreeWalk

variable {ε α β γ δ : Type} {view : ShapeError → ε}

/-! ## Results -/

/-- Two results are alike if they are errors that look the same, or values that are related. -/
inductive Alike (view : ShapeError → ε) (R : α → β → Prop) :
    Except ShapeError α → Except ShapeError β → Prop
  | error {e e' : ShapeError} : view e = view e' → Alike view R (.error e) (.error e')
  | ok {a : α} {b : β} : R a b → Alike view R (.ok a) (.ok b)

/-- One value, or errors that look the same. -/
abbrev SameResult (view : ShapeError → ε) : Except ShapeError α → Except ShapeError α → Prop :=
  Alike view Eq

namespace Alike

variable {R : α → β → Prop} {S : γ → δ → Prop} {a : Except ShapeError α} {b : Except ShapeError β}

theorem bind (h : Alike view R a b) {f : α → Except ShapeError γ} {g : β → Except ShapeError δ}
    (hfg : ∀ x y, a = .ok x → b = .ok y → R x y → Alike view S (f x) (g y)) :
    Alike view S (a >>= f) (b >>= g) := by
  cases h with
  | error h => exact .error h
  | ok h => exact hfg _ _ rfl rfl h

end Alike

namespace SameResult

variable {a b c : Except ShapeError α}

protected theorem refl (a : Except ShapeError α) : SameResult view a a := by
  cases a with
  | error e => exact .error rfl
  | ok x => exact .ok rfl

theorem of_eq (h : a = b) : SameResult view a b :=
  h ▸ SameResult.refl a

theorem trans (h : SameResult view a b) (h' : SameResult view b c) : SameResult view a c := by
  cases h with
  | error h =>
    cases h' with
    | error h' => exact .error (h.trans h')
  | ok h =>
    cases h' with
    | ok h' => exact .ok (h.trans h')

theorem bind (h : SameResult view a b) {f g : α → Except ShapeError γ}
    (hfg : ∀ x, SameResult view (f x) (g x)) : SameResult view (a >>= f) (b >>= g) :=
  Alike.bind h fun x _ _ _ hxy => hxy ▸ hfg x

theorem before (h : SameResult view a b) (f : α → Except ShapeError γ) :
    SameResult view (a >>= f) (b >>= f) :=
  h.bind fun x => SameResult.refl (f x)

theorem map (h : SameResult view a b) (f : α → γ) : SameResult view (a.map f) (b.map f) := by
  cases h with
  | error h => exact .error h
  | ok h => exact .ok (congrArg f h)

/-- With errors seen as they are, it is equality. -/
theorem eq (h : SameResult id a b) : a = b := by
  cases h with
  | error h => exact congrArg Except.error h
  | ok h => exact congrArg Except.ok h

theorem eq_ok_iff (h : SameResult view a b) (x : α) : a = .ok x ↔ b = .ok x := by
  cases h with
  | error h => exact ⟨nofun, nofun⟩
  | ok h => rw [h]

/-- If nothing of an error is seen, only the values count. -/
theorem of_forall_iff (h : ∀ x, a = .ok x ↔ b = .ok x) : SameResult (fun _ => ()) a b := by
  cases a with
  | ok x => exact of_eq ((h x).mp rfl).symm
  | error e =>
    cases b with
    | ok y => exact of_eq ((h y).mpr rfl)
    | error e' => exact .error rfl

end SameResult

/-! ## Children -/

/-- The statement that the children of a statement node are read as. -/
def Stmt.ofChildren : List (Tag × Tree) → Except ShapeError Stmt
  | [(tag, c)] => ofTree tag c
  | cs => .ok (malformed cs.length)

theorem Stmt.ofTree_statement_eq (t : Tree) :
    ofTree .statement t = t.children .statement >>= Stmt.ofChildren := by
  rw [ofTree_statement]
  refine bind_congr fun cs => ?_
  match cs with
  | [] | [_] | _ :: _ :: _ => rfl

theorem Stmt.ofChildren_of_length_ne_one {cs : List (Tag × Tree)} (h : cs.length ≠ 1) :
    ofChildren cs = .ok (malformed cs.length) := by
  match cs with
  | [] => rfl
  | [_] => exact absurd rfl h
  | _ :: _ :: _ => rfl

/-- In a node of this kind, these lists of children are read alike. -/
def ReadAlike (view : ShapeError → ε) (parent : Tag) (cs ds : List (Tag × Tree)) : Prop :=
  match parent with
  | .expression => SameResult view (Expr.ofChildren cs) (Expr.ofChildren ds)
  | .statement => SameResult view (Stmt.ofChildren cs) (Stmt.ofChildren ds)
  | .variableAccess => ∀ name, SameResult view (accessParts id name cs) (accessParts id name ds)
  | .functionCall => ∀ name,
      SameResult view (callParts id Expr.ofTree name cs) (callParts id Expr.ofTree name ds)
  | .builtInFunction => SameResult view (builtInParts Expr.ofTree cs) (builtInParts Expr.ofTree ds)
  | .functionDefinition => ∀ name,
      SameResult view (definitionParts id Stmt.ofTree name cs)
        (definitionParts id Stmt.ofTree name ds)
  | .conditional => SameResult view (conditionalParts Expr.ofTree Stmt.ofTree cs)
      (conditionalParts Expr.ofTree Stmt.ofTree ds)
  | .variableDeclaration => ∀ name value,
      SameResult view (declarationParts id Expr.ofTree name value cs)
        (declarationParts id Expr.ofTree name value ds)
  | .program => SameResult view (itemsOf cs) (itemsOf ds)
  | _ => True

/-- The nodes that stand for their one child, and are malformed if they have not one. -/
def Tag.isWrapper : Tag → Bool
  | expression | statement => true
  | _ => false

theorem accessParts_append (cs ds : List (Tag × Tree)) (name : Option Name) :
    accessParts id name (cs ++ ds) = accessParts id name cs >>= fun name =>
      accessParts id name ds := by
  induction cs generalizing name with
  | nil => rfl
  | cons c cs ih =>
    obtain ⟨tag, c⟩ := c
    cases tag with
    | name => simp only [List.cons_append, accessParts, ih, bind_assoc]
    | _ => rfl

namespace ReadAlike

variable {parent : Tag} {cs ds cs' ds' : List (Tag × Tree)}

protected theorem refl (view : ShapeError → ε) (parent : Tag) (cs : List (Tag × Tree)) :
    ReadAlike view parent cs cs := by
  cases parent <;> simp only [ReadAlike] <;> intros <;> exact SameResult.refl _

/-- The children of a node that is no wrapper are read one after another. -/
theorem append (hparent : parent.isWrapper = false) (h : ReadAlike view parent cs ds)
    (h' : ReadAlike view parent cs' ds') : ReadAlike view parent (cs ++ cs') (ds ++ ds') := by
  cases parent with
  | expression | statement => cases hparent
  | variableAccess =>
    intro name
    rw [accessParts_append, accessParts_append]
    exact (h name).bind h'
  | functionCall =>
    intro name
    rw [callParts_append, callParts_append]
    exact (h name).bind fun s => (h' s.1).before _
  | builtInFunction =>
    simp only [ReadAlike, builtInParts_append] at *
    exact SameResult.bind h fun s => h'.before _
  | functionDefinition =>
    intro name
    rw [definitionParts_append, definitionParts_append]
    exact (h name).bind fun s => (h' s.1).before _
  | conditional =>
    simp only [ReadAlike, conditionalParts_append] at *
    exact SameResult.bind h fun s => h'.before _
  | variableDeclaration =>
    intro name value
    rw [declarationParts_append, declarationParts_append]
    exact (h name value).bind fun s => h' s.1 s.2
  | program =>
    simp only [ReadAlike, itemsOf_append] at *
    exact SameResult.bind h fun items => h'.before _
  | _ => trivial

/-- A wrapper that has not one child is malformed, whatever its children are. -/
theorem of_length (hparent : parent.isWrapper = true) (hlength : cs.length = ds.length)
    (hcount : cs.length ≠ 1) : ReadAlike view parent cs ds := by
  cases parent with
  | expression =>
    rw [ReadAlike, Expr.ofChildren_of_length_ne_one hcount,
      Expr.ofChildren_of_length_ne_one (hlength ▸ hcount), hlength]
    exact .refl _
  | statement =>
    rw [ReadAlike, Stmt.ofChildren_of_length_ne_one hcount,
      Stmt.ofChildren_of_length_ne_one (hlength ▸ hcount), hlength]
    exact .refl _
  | _ => cases hparent

/-- Children that are read alike one by one are read alike. In a wrapper, they have to be only
    if there is one. -/
theorem of_forall₂
    (h : List.Forall₂ (fun c d => (parent.isWrapper = true → cs.length = 1) →
      ReadAlike view parent [c] [d]) cs ds) : ReadAlike view parent cs ds := by
  cases hparent : parent.isWrapper with
  | true =>
    by_cases hcount : cs.length = 1
    · obtain ⟨c, rfl⟩ := List.length_eq_one_iff.mp hcount
      cases h with
      | cons hhead hrest =>
        cases hrest
        exact hhead fun _ => hcount
    · exact of_length hparent h.length_eq hcount
  | false =>
    have hall : List.Forall₂ (fun c d => ReadAlike view parent [c] [d]) cs ds :=
      h.imp fun _ _ h => h fun hwrapper => absurd (hparent.symm.trans hwrapper) Bool.false_ne_true
    clear h
    induction hall with
    | nil => exact .refl view parent []
    | cons hhead _ ih => exact append hparent hhead ih

end ReadAlike

/-! ## Entries -/

/-- An entry whose key is a tag stands for one child for each of its items, unless it is an
    operator without any. -/
theorem entryChildren_eq {parent tag : Tag} {key : String} (htag : Tag.ofText? key = some tag)
    (t : Tree) :
    entryChildren parent key t =
      if t.items = [] ∧ tag.isOperator = true then .error (.emptyOperator tag parent)
      else .ok (t.items.map (Prod.mk tag)) := by
  simp only [entryChildren, Tag.ofText, htag, bind, Except.bind]
  cases t with
  | list items => cases items <;> simp [Tree.items]
  | _ => simp [Tree.items]

theorem Tree.items_of_ne_list {t : Tree} (ht : ∀ items, t ≠ .list items) : t.items = [t] := by
  cases t with
  | list items => exact absurd rfl (ht items)
  | _ => rfl

theorem entryChildren_text (parent tag : Tag) {t : Tree} (ht : ∀ items, t ≠ .list items) :
    entryChildren parent tag.text t = .ok [(tag, t)] := by
  rw [entryChildren_eq (Tag.ofText?_text tag), Tree.items_of_ne_list ht]
  rfl

section Entries

variable {parent : Tag} {S : Tag × Tree → Tag × Tree → Prop}

/-- Entries with one key are alike if their items are related one by one. -/
theorem entryChildren_alike {key : String} {t t' : Tree}
    (h : ∀ tag, Tag.ofText? key = some tag →
      List.Forall₂ (fun x y => S (tag, x) (tag, y)) t.items t'.items) :
    Alike view (List.Forall₂ S) (entryChildren parent key t) (entryChildren parent key t') := by
  cases htag : Tag.ofText? key with
  | none =>
    simp only [entryChildren, Tag.ofText, htag]
    exact .error rfl
  | some tag =>
    have hitems := h tag htag
    have hempty : t.items = [] ↔ t'.items = [] := by
      rw [← List.length_eq_zero_iff, ← List.length_eq_zero_iff, hitems.length_eq]
    rw [entryChildren_eq htag, entryChildren_eq htag]
    simp only [hempty]
    split
    · exact .error rfl
    · refine .ok ?_
      rw [List.forall₂_map_left_iff, List.forall₂_map_right_iff]
      exact hitems

theorem entriesChildren_alike {es fs : List (String × Tree)}
    (h : List.Forall₂ (fun e f => Alike view (List.Forall₂ S) (entryChildren parent e.1 e.2)
      (entryChildren parent f.1 f.2)) es fs) :
    Alike view (List.Forall₂ S) (entriesChildren parent es) (entriesChildren parent fs) := by
  induction h with
  | nil => exact .ok .nil
  | cons hhead _ ih =>
    exact hhead.bind fun first first' _ _ hfirst => ih.bind fun others others' _ _ hothers =>
      .ok (List.rel_append hfirst hothers)

/-- Objects are read alike if their entries are alike one by one and stand for children that
    are read alike. -/
theorem readAlike_of_entries {es fs : List (String × Tree)}
    (hentries : List.Forall₂ (fun e f => Alike view (List.Forall₂ S)
      (entryChildren parent e.1 e.2) (entryChildren parent f.1 f.2)) es fs)
    (hS : ∀ cs ds, entriesChildren parent es = .ok cs → entriesChildren parent fs = .ok ds →
      ∀ c ∈ cs, ∀ d ∈ ds, S c d → (parent.isWrapper = true → cs.length = 1) →
        ReadAlike view parent [c] [d]) :
    Alike view (ReadAlike view parent) (entriesChildren parent es)
      (entriesChildren parent fs) := by
  have hchildren := entriesChildren_alike hentries
  revert hS
  generalize entriesChildren parent es = a at hchildren ⊢
  generalize entriesChildren parent fs = b at hchildren ⊢
  intro hS
  cases hchildren with
  | error h => exact .error h
  | @ok cs ds hmatched =>
    refine .ok (ReadAlike.of_forall₂ ?_)
    rw [List.forall₂_iff_zip] at hmatched ⊢
    refine ⟨hmatched.1, fun {c d} hmem => ?_⟩
    obtain ⟨hc, hd⟩ := List.of_mem_zip hmem
    exact hS cs ds rfl rfl c hc d hd (hmatched.2 hmem)

end Entries

/-! ## Trees under a tag -/

/-- Nothing that looks under the tag can tell the trees apart. -/
structure SameUnder (view : ShapeError → ε) (tag : Tag) (t t' : Tree) : Prop where
  scalar_eq : tag = .name ∨ tag = .parameter ∨ tag = .value → t.scalar? = t'.scalar?
  expr : SameResult view (Expr.ofChildren [(tag, t)]) (Expr.ofChildren [(tag, t')])
  stmt : SameResult view (Stmt.ofTree tag t) (Stmt.ofTree tag t')
  program : tag = .program → SameResult view (Program.ofPayload t) (Program.ofPayload t')

/-- The kind of node that stands under a tag: what is returned is an expression. -/
def Tag.node : Tag → Tag
  | returns => expression
  | tag => tag

namespace SameUnder

variable {tag : Tag} {t t' : Tree}

protected theorem refl (view : ShapeError → ε) (tag : Tag) (t : Tree) : SameUnder view tag t t where
  scalar_eq _ := rfl
  expr := SameResult.refl _
  stmt := SameResult.refl _
  program _ := SameResult.refl _

theorem trans {t'' : Tree} (h : SameUnder view tag t t') (h' : SameUnder view tag t' t'') :
    SameUnder view tag t t'' where
  scalar_eq htag := (h.scalar_eq htag).trans (h'.scalar_eq htag)
  expr := h.expr.trans h'.expr
  stmt := h.stmt.trans h'.stmt
  program htag := (h.program htag).trans (h'.program htag)

theorem item (h : SameUnder view tag t t') :
    SameResult view (Item.ofTree tag t) (Item.ofTree tag t') := by
  by_cases htag : tag ∈ Item.tags
  · have htag : tag = .functionDefinition ∨ tag = .conditional ∨ tag = .returns := by
      simpa [Item.tags, or_comm, or_assoc] using htag
    rw [Item.ofTree_eq_bind t htag, Item.ofTree_eq_bind t' htag]
    exact h.stmt.before _
  · rw [Item.ofTree_of_notMem htag, Item.ofTree_of_notMem htag]
    exact SameResult.refl _

theorem onlyName_eq (h : SameUnder view .name t t') (parent : Tag) (former : Option Name) :
    onlyName parent former t = onlyName parent former t' :=
  onlyName_congr parent former (h.scalar_eq (.inl rfl))

theorem ofTree (h : SameUnder view .expression t t') :
    SameResult view (Expr.ofTree t) (Expr.ofTree t') :=
  h.expr

/-- A child may be exchanged for one of its tag that cannot be told apart, in any node. -/
theorem readAlike (h : SameUnder view tag t t') (parent : Tag) :
    ReadAlike view parent [(tag, t)] [(tag, t')] := by
  cases parent with
  | expression => exact h.expr
  | statement => exact h.stmt
  | variableAccess =>
    intro name
    cases tag with
    | name => exact .of_eq (congrArg (· >>= _) (h.onlyName_eq .variableAccess name))
    | _ => exact SameResult.refl _
  | functionCall =>
    intro name
    cases tag with
    | name => exact .of_eq (congrArg (· >>= _) (h.onlyName_eq .functionCall name))
    | expression => exact h.ofTree.before _
    | _ => exact SameResult.refl _
  | builtInFunction =>
    cases tag with
    | expression => exact h.ofTree.before _
    | _ => exact SameResult.refl _
  | functionDefinition =>
    intro name
    cases tag with
    | name => exact .of_eq (congrArg (· >>= _) (h.onlyName_eq .functionDefinition name))
    | parameter =>
      exact .of_eq (congrArg (· >>= _) (parameterOf_congr (h.scalar_eq (.inr (.inl rfl)))))
    | _ => exact h.stmt.before _
  | conditional =>
    cases tag with
    | expression => exact h.ofTree.before _
    | _ => exact h.stmt.before _
  | variableDeclaration =>
    intro name value
    cases tag with
    | name => exact .of_eq (congrArg (· >>= _) (h.onlyName_eq .variableDeclaration name))
    | value =>
      exact .of_eq (congrArg (· >>= _) (scalarOf_congr .value (h.scalar_eq (.inr (.inr rfl)))))
    | expression => exact h.ofTree.before _
    | _ => exact SameResult.refl _
  | program => exact h.item.before _
  | _ => trivial

/-- Where an expression is wanted, nothing else is looked at. -/
theorem of_expr (htag : tag = .returns ∨ tag = .expression)
    (h : SameResult view (Expr.ofTree t) (Expr.ofTree t')) : SameUnder view tag t t' where
  scalar_eq := by
    rcases htag with rfl | rfl <;> simp
  expr := by
    rcases htag with rfl | rfl
    · exact SameResult.refl _
    · exact h
  stmt := by
    rcases htag with rfl | rfl <;> simp only [Stmt.ofTree] <;> exact h.map _
  program := by
    rcases htag with rfl | rfl <;> simp

/-- Trees may be exchanged if their children are read alike in the node that they are. -/
theorem of_children (hscalar : t.scalar? = t'.scalar?)
    (h : Alike view (ReadAlike view tag.node) (t.children tag.node) (t'.children tag.node)) :
    SameUnder view tag t t' where
  scalar_eq _ := hscalar
  expr := by
    cases tag with
    | expression =>
      change SameResult view (Expr.ofTree t) (Expr.ofTree t')
      rw [Expr.ofTree_eq, Expr.ofTree_eq]
      exact h.bind fun cs ds _ _ h => h
    | number | string | boolean | parameter =>
      exact .of_eq (congrArg (Except.map _) (scalarOf_congr _ hscalar))
    | variableAccess => exact h.bind fun cs ds _ _ h => (h none).before _
    | functionCall => exact h.bind fun cs ds _ _ h => (h none).before _
    | builtInFunction => exact h.bind fun cs ds _ _ h => SameResult.before h _
    | _ => exact SameResult.refl _
  stmt := by
    cases tag with
    | statement =>
      rw [Stmt.ofTree_statement_eq, Stmt.ofTree_statement_eq]
      exact h.bind fun cs ds _ _ h => h
    | functionDefinition =>
      rw [Stmt.ofTree_functionDefinition, Stmt.ofTree_functionDefinition]
      exact h.bind fun cs ds _ _ h => (h none).before _
    | conditional =>
      rw [Stmt.ofTree_conditional, Stmt.ofTree_conditional]
      exact h.bind fun cs ds _ _ h => SameResult.before h _
    | variableDeclaration =>
      rw [Stmt.ofTree, Stmt.ofTree]
      exact h.bind fun cs ds _ _ h => (h none none).before _
    | returns | expression =>
      have hexpr : SameResult view (Expr.ofTree t) (Expr.ofTree t') := by
        rw [Expr.ofTree_eq, Expr.ofTree_eq]
        exact h.bind fun cs ds _ _ h => h
      rw [Stmt.ofTree, Stmt.ofTree]
      exact hexpr.map _
    | _ =>
      rw [Stmt.ofTree_of_notMem (by decide), Stmt.ofTree_of_notMem (by decide)]
      exact SameResult.refl _
  program := by
    rintro rfl
    exact h.bind fun cs ds _ _ h => SameResult.before h _

end SameUnder

/-! ## Bisimulations -/

/-- The same error, or children with the same tags and related payloads. -/
inductive ChildrenRelated (R : Tree → Tree → Prop) :
    Except ShapeError (List (Tag × Tree)) → Except ShapeError (List (Tag × Tree)) → Prop
  | error (e : ShapeError) : ChildrenRelated R (.error e) (.error e)
  | ok {cs ds : List (Tag × Tree)} : Matched R cs ds → ChildrenRelated R (.ok cs) (.ok ds)

theorem ChildrenRelated.of_alike {R : Tree → Tree → Prop}
    {a b : Except ShapeError (List (Tag × Tree))}
    (h : Alike (id : ShapeError → ShapeError) (Matched R) a b) : ChildrenRelated R a b := by
  cases h with
  | @error e e' h =>
    obtain rfl : e = e' := h
    exact .error e
  | ok h => exact .ok h

/-- A relation between trees that keeps what the readers look at. -/
structure Tree.Bisimulation (R : Tree → Tree → Prop) : Prop where
  scalar_eq {t t' : Tree} : R t t' → t.scalar? = t'.scalar?
  children {t t' : Tree} (parent : Tag) :
    R t t' → ChildrenRelated R (t.children parent) (t'.children parent)

namespace Tree.Bisimulation

variable {R : Tree → Tree → Prop}

/-- Nothing that looks under a tag can tell related trees apart. -/
theorem sameUnder (hR : Bisimulation R) {t t' : Tree} (h : R t t') (tag : Tag) :
    SameUnder (id : ShapeError → ShapeError) tag t t' := by
  refine .of_children (hR.scalar_eq h) ?_
  have hchildren := hR.children tag.node h
  generalize hcs : t.children tag.node = a at hchildren ⊢
  generalize t'.children tag.node = b at hchildren ⊢
  cases hchildren with
  | error e => exact .error rfl
  | ok hmatched =>
    have hsmaller : Matched (fun c d => R c d ∧ sizeOf c < sizeOf t) _ _ :=
      hmatched.imp_of_mem fun _ hc _ hrel => ⟨hrel, sizeOf_of_children hcs hc⟩
    refine .ok (ReadAlike.of_forall₂ (hsmaller.imp ?_))
    rintro ⟨tag', c⟩ ⟨_, d⟩ ⟨rfl, hrel, hlt⟩ _
    exact (hR.sameUnder hrel tag').readAlike tag.node
termination_by sizeOf t

/-- Related payloads of the root are read as the same program, or fail to be one in the same
    way. -/
theorem programOfPayload_eq (hR : Bisimulation R) {t t' : Tree} (h : R t t') :
    Program.ofPayload t = Program.ofPayload t' :=
  ((hR.sameUnder h .program).program rfl).eq

end Tree.Bisimulation

/-! ## Documents -/

/-- Documents are alike if they have the same keys at the root, and programs under them that
    cannot be told apart. -/
theorem Program.ofTree_same {es fs : List (String × Tree)}
    (h : List.Forall₂ (fun e f => e.1 = f.1 ∧
      (e.1 = Tag.program.text → SameUnder view .program e.2 f.2)) es fs) :
    SameResult view (ofTree (.object es)) (ofTree (.object fs)) := by
  cases h with
  | nil => exact SameResult.refl _
  | @cons e f es fs hhead hrest =>
    obtain ⟨key, t⟩ := e
    obtain ⟨key', t'⟩ := f
    obtain ⟨rfl, hpayload⟩ := hhead
    cases hrest with
    | cons hnext hrest => exact .of_eq (by simp [ofTree, hrest.length_eq])
    | nil =>
      simp only [ofTree]
      split
      · next hkey => exact (hpayload hkey).program rfl
      · exact SameResult.refl _

end TreeWalk
