-- SUMMARY: Trees with one number left open, and the place of the number in the program.
import TreeWalk.Proofs.Shape

/-! # Sites

A site is a tree as a function of a number in it, together with what the tree is read as, as
a function of the same number. The number stands as the payload of a number node, of a
parameter that is an expression, or of the value of a declaration; on the way there, each
node may have other children, which are any that can be read.

A site says where the number goes: reading the tree gives the program with the number in
that place, whichever number it is.
-/

namespace TreeWalk

/-! ## Children one after another -/

section

variable {α : Type} (tree : α → Tree) (expr : α → Except ShapeError Expr)
  (stmt : Tag → α → Except ShapeError Stmt)

theorem callParts_append (cs ds : List (Tag × α)) (name : Option Name) :
    callParts tree expr name (cs ++ ds) = do
      let s ← callParts tree expr name cs
      let s' ← callParts tree expr s.1 ds
      return (s'.1, s.2 ++ s'.2) := by
  induction cs generalizing name with
  | nil => exact (bind_pure _).symm
  | cons c cs ih =>
    obtain ⟨tag, c⟩ := c
    cases tag with
    | name => simp only [List.cons_append, callParts, ih, bind_assoc]
    | expression => simp [callParts, ih]
    | _ => rfl

theorem builtInParts_append (cs ds : List (Tag × α)) :
    builtInParts expr (cs ++ ds) = do
      let s ← builtInParts expr cs
      let s' ← builtInParts expr ds
      return (s.1 ++ s'.1, s.2 ++ s'.2) := by
  induction cs with
  | nil => exact (bind_pure _).symm
  | cons c cs ih =>
    obtain ⟨tag, c⟩ := c
    cases tag with
    | expression => simp [builtInParts, ih]
    | equality | plus | minus =>
      simp only [List.cons_append, builtInParts, ih]
      cases builtInParts expr cs with
      | error e => rfl
      | ok s => cases builtInParts expr ds <;> rfl
    | _ => rfl

theorem definitionParts_append (cs ds : List (Tag × α)) (name : Option Name) :
    definitionParts tree stmt name (cs ++ ds) = do
      let s ← definitionParts tree stmt name cs
      let s' ← definitionParts tree stmt s.1 ds
      return (s'.1, s.2.1 ++ s'.2.1, s.2.2 ++ s'.2.2) := by
  induction cs generalizing name with
  | nil => exact (bind_pure _).symm
  | cons c cs ih =>
    obtain ⟨tag, c⟩ := c
    cases tag <;> simp [definitionParts, ih]

theorem conditionalParts_append (cs ds : List (Tag × α)) :
    conditionalParts expr stmt (cs ++ ds) = do
      let s ← conditionalParts expr stmt cs
      let s' ← conditionalParts expr stmt ds
      return (s.1 ++ s'.1, s.2 ++ s'.2) := by
  induction cs with
  | nil => exact (bind_pure _).symm
  | cons c cs ih =>
    obtain ⟨tag, c⟩ := c
    cases tag <;> simp [conditionalParts, ih]

theorem declarationParts_append (cs ds : List (Tag × α)) (name : Option Name)
    (value : Option Initializer) :
    declarationParts tree expr name value (cs ++ ds) =
      declarationParts tree expr name value cs >>= fun s =>
        declarationParts tree expr s.1 s.2 ds := by
  induction cs generalizing name value with
  | nil => rfl
  | cons c cs ih =>
    obtain ⟨tag, c⟩ := c
    cases tag with
    | name | value | expression => simp [declarationParts, ih]
    | _ => rfl

end

theorem itemsOf_append (cs ds : List (Tag × Tree)) :
    itemsOf (cs ++ ds) = do
      let items ← itemsOf cs
      let items' ← itemsOf ds
      return items ++ items' := by
  induction cs with
  | nil => exact (bind_pure _).symm
  | cons c cs ih => simp [itemsOf, ih]

/-! ## Sites -/

/-- The number as a scalar. -/
def Tree.number (x : Number) : Tree :=
  .scalar (.number x)

/-- Whatever the number is, the node has a child under `tag` that depends on it as `G` does,
    between children that do not depend on it. -/
def ChildAt (parent : Tag) (F : Number → Tree) (before : List (Tag × Tree)) (tag : Tag)
    (G : Number → Tree) (after : List (Tag × Tree)) : Prop :=
  ∀ x, (F x).children parent = .ok (before ++ (tag, G x) :: after)

/-- An expression node with an open number, and the expression that it is read as. -/
inductive Expr.Site : (Number → Tree) → (Number → Expr) → Prop
  | number {F : Number → Tree} :
      ChildAt .expression F [] .number Tree.number [] → Site F fun x => .literal (.number x)
  | parameter {F : Number → Tree} :
      ChildAt .expression F [] .parameter Tree.number [] → Site F fun x => .parameter (.number x)
  | nested {F G : Number → Tree} {E : Number → Expr} :
      ChildAt .expression F [] .expression G [] → Site G E → Site F E
  | argument {F C G : Number → Tree} {E : Number → Expr} {before after : List (Tag × Tree)}
      {name name' : Option Name} {es es' : List Expr} :
      ChildAt .expression F [] .functionCall C [] →
        ChildAt .functionCall C before .expression G after →
          callParts id Expr.ofTree none before = .ok (name, es) → Site G E →
            callParts id Expr.ofTree name after = .ok (name', es') →
              Site F fun x => .call name' (es ++ E x :: es')
  | operand {F C G : Number → Tree} {E : Number → Expr} {before after : List (Tag × Tree)}
      {ops ops' : List Operator} {es es' : List Expr} :
      ChildAt .expression F [] .builtInFunction C [] →
        ChildAt .builtInFunction C before .expression G after →
          builtInParts Expr.ofTree before = .ok (ops, es) → Site G E →
            builtInParts Expr.ofTree after = .ok (ops', es') →
              Site F fun x => .builtIn (ops ++ ops') (es ++ E x :: es')

/-- The payload of a statement tag with an open number, and the statement that it is read
    as. -/
inductive Stmt.Site : Tag → (Number → Tree) → (Number → Stmt) → Prop
  | returns {F : Number → Tree} {E : Number → Expr} :
      Expr.Site F E → Site .returns F fun x => .returns (E x)
  | expression {F : Number → Tree} {E : Number → Expr} :
      Expr.Site F E → Site .expression F fun x => .expression (E x)
  | wrapped {F G : Number → Tree} {tag : Tag} {S : Number → Stmt} :
      ChildAt .statement F [] tag G [] → Site tag G S → Site .statement F S
  | value {F : Number → Tree} {before after : List (Tag × Tree)} {name name' : Option Name} :
      ChildAt .variableDeclaration F before .value Tree.number after →
        declarationParts id Expr.ofTree none none before = .ok (name, none) →
          (∀ i, declarationParts id Expr.ofTree name (some i) after = .ok (name', some i)) →
            Site .variableDeclaration F fun x => .declaration name' (some (.literal (.number x)))
  | declared {F G : Number → Tree} {E : Number → Expr} {before after : List (Tag × Tree)}
      {name name' : Option Name} :
      ChildAt .variableDeclaration F before .expression G after →
        declarationParts id Expr.ofTree none none before = .ok (name, none) → Expr.Site G E →
          (∀ i, declarationParts id Expr.ofTree name (some i) after = .ok (name', some i)) →
            Site .variableDeclaration F fun x => .declaration name' (some (.expression (E x)))
  | body {F G : Number → Tree} {tag : Tag} {S : Number → Stmt} {before after : List (Tag × Tree)}
      {name name' : Option Name} {xs xs' : List Name} {ss ss' : List Stmt} :
      ChildAt .functionDefinition F before tag G after → tag ≠ .name → tag ≠ .parameter →
        definitionParts id Stmt.ofTree none before = .ok (name, xs, ss) → Site tag G S →
          definitionParts id Stmt.ofTree name after = .ok (name', xs', ss') →
            Site .functionDefinition F fun x =>
              .functionDefinition name' (xs ++ xs') (ss ++ S x :: ss')
  | condition {F G : Number → Tree} {E : Number → Expr} {before after : List (Tag × Tree)}
      {es es' : List Expr} {ss ss' : List Stmt} :
      ChildAt .conditional F before .expression G after →
        conditionalParts Expr.ofTree Stmt.ofTree before = .ok (es, ss) → Expr.Site G E →
          conditionalParts Expr.ofTree Stmt.ofTree after = .ok (es', ss') →
            Site .conditional F fun x => .conditional (es ++ E x :: es') (ss ++ ss')
  | branch {F G : Number → Tree} {tag : Tag} {S : Number → Stmt} {before after : List (Tag × Tree)}
      {es es' : List Expr} {ss ss' : List Stmt} :
      ChildAt .conditional F before tag G after → tag ≠ .expression →
        conditionalParts Expr.ofTree Stmt.ofTree before = .ok (es, ss) → Site tag G S →
          conditionalParts Expr.ofTree Stmt.ofTree after = .ok (es', ss') →
            Site .conditional F fun x => .conditional (es ++ es') (ss ++ S x :: ss')

/-- The item of a program that does what a statement does, if there is one. -/
def Item.ofStmt? : Stmt → Option Item
  | .functionDefinition name parameters body => some (functionDefinition name parameters body)
  | .conditional conditions body => some (conditional conditions body)
  | .returns e => some (returns e)
  | _ => none

/-- A document with an open number, and the program that it is read as. -/
inductive Program.Site : (Number → Tree) → (Number → Program) → Prop
  | item {F D G : Number → Tree} {tag : Tag} {S : Number → Stmt} {I : Number → Item}
      {before after : List (Tag × Tree)} {items items' : List Item} :
      (∀ x, F x = .object [(Tag.program.text, D x)]) → ChildAt .program D before tag G after →
        tag = .functionDefinition ∨ tag = .conditional ∨ tag = .returns →
          itemsOf before = .ok items → Stmt.Site tag G S →
            (∀ x, Item.ofStmt? (S x) = some (I x)) → itemsOf after = .ok items' →
              Site F fun x => ⟨items ++ I x :: items'⟩

/-! ## Reading a site -/

theorem ChildAt.bind_eq {β : Type} {parent tag : Tag} {F G : Number → Tree}
    {before after : List (Tag × Tree)} (h : ChildAt parent F before tag G after) (x : Number)
    (f : List (Tag × Tree) → Except ShapeError β) :
    (F x).children parent >>= f = f (before ++ (tag, G x) :: after) := by
  rw [h x]
  rfl

theorem Expr.Site.ofTree_eq {F : Number → Tree} {E : Number → Expr} (h : Expr.Site F E)
    (x : Number) : Expr.ofTree (F x) = .ok (E x) := by
  induction h with
  | number h | parameter h => rw [Expr.ofTree_eq, h.bind_eq]; rfl
  | nested h _ ih => rw [Expr.ofTree_eq, h.bind_eq]; exact ih
  | argument h hcall hbefore _ hafter ih =>
    rw [Expr.ofTree_eq, h.bind_eq]
    simp only [List.nil_append, Expr.ofChildren]
    rw [hcall.bind_eq, callParts_append, hbefore]
    simp only [bind, Except.bind, callParts, ih, hafter]
    rfl
  | operand h hbuiltIn hbefore _ hafter ih =>
    rw [Expr.ofTree_eq, h.bind_eq]
    simp only [List.nil_append, Expr.ofChildren]
    rw [hbuiltIn.bind_eq, builtInParts_append, hbefore]
    simp only [bind, Except.bind, builtInParts, ih, hafter]
    rfl

section Between

variable {before after : List (Tag × Tree)} {tag : Tag} {t : Tree} {s : Stmt}
  {ss ss' : List Stmt}

theorem definitionParts_between {name name' : Option Name} {xs xs' : List Name}
    (hname : tag ≠ .name) (hparameter : tag ≠ .parameter)
    (hbefore : definitionParts id Stmt.ofTree none before = .ok (name, xs, ss))
    (hs : Stmt.ofTree tag t = .ok s)
    (hafter : definitionParts id Stmt.ofTree name after = .ok (name', xs', ss')) :
    definitionParts id Stmt.ofTree none (before ++ (tag, t) :: after) =
      .ok (name', xs ++ xs', ss ++ s :: ss') := by
  have hrest : definitionParts id Stmt.ofTree name ((tag, t) :: after) =
      .ok (name', xs', s :: ss') := by
    cases tag with
    | name | parameter => contradiction
    | _ => simp only [definitionParts, bind, Except.bind, hs, hafter]; rfl
  rw [definitionParts_append, hbefore]
  simp only [bind, Except.bind, hrest]
  rfl

theorem conditionalParts_between {es es' : List Expr} (htag : tag ≠ .expression)
    (hbefore : conditionalParts Expr.ofTree Stmt.ofTree before = .ok (es, ss))
    (hs : Stmt.ofTree tag t = .ok s)
    (hafter : conditionalParts Expr.ofTree Stmt.ofTree after = .ok (es', ss')) :
    conditionalParts Expr.ofTree Stmt.ofTree (before ++ (tag, t) :: after) =
      .ok (es ++ es', ss ++ s :: ss') := by
  have hrest : conditionalParts Expr.ofTree Stmt.ofTree ((tag, t) :: after) =
      .ok (es', s :: ss') := by
    cases tag with
    | expression => contradiction
    | _ => simp only [conditionalParts, bind, Except.bind, hs, hafter]; rfl
  rw [conditionalParts_append, hbefore]
  simp only [bind, Except.bind, hrest]
  rfl

end Between

theorem onlyValue_none (i : Initializer) : onlyValue none i = .ok (some i) := rfl

theorem Stmt.Site.ofTree_eq {tag : Tag} {F : Number → Tree} {S : Number → Stmt}
    (h : Stmt.Site tag F S) (x : Number) : Stmt.ofTree tag (F x) = .ok (S x) := by
  induction h with
  | returns h | expression h => rw [Stmt.ofTree, h.ofTree_eq x]; rfl
  | wrapped h _ ih => rw [Stmt.ofTree_statement, h.bind_eq]; exact ih
  | value h hbefore hafter =>
    rw [Stmt.ofTree, h.bind_eq, declarationParts_append, hbefore]
    simp only [bind, Except.bind, declarationParts, id, Tree.number, scalarOf, onlyValue_none,
      hafter]
    rfl
  | declared h hbefore hexpr hafter =>
    rw [Stmt.ofTree, h.bind_eq, declarationParts_append, hbefore]
    simp only [bind, Except.bind, declarationParts, hexpr.ofTree_eq x, onlyValue_none, hafter]
    rfl
  | body h hname hparameter hbefore _ hafter ih =>
    rw [Stmt.ofTree_functionDefinition, h.bind_eq,
      definitionParts_between hname hparameter hbefore ih hafter]
    rfl
  | condition h hbefore hexpr hafter =>
    rw [Stmt.ofTree_conditional, h.bind_eq, conditionalParts_append, hbefore]
    simp only [bind, Except.bind, conditionalParts, hexpr.ofTree_eq x, hafter]
    rfl
  | branch h htag hbefore _ hafter ih =>
    rw [Stmt.ofTree_conditional, h.bind_eq, conditionalParts_between htag hbefore ih hafter]
    rfl

/-- What stands at the top of a program is read as the statement that stands there. -/
theorem Item.ofTree_eq_bind {tag : Tag} (t : Tree)
    (htag : tag = .functionDefinition ∨ tag = .conditional ∨ tag = .returns) :
    Item.ofTree tag t = Stmt.ofTree tag t >>= fun s =>
      match Item.ofStmt? s with
      | some i => .ok i
      | none => .ok (.invalid tag) := by
  rcases htag with rfl | rfl | rfl
  · rw [Stmt.ofTree_functionDefinition, bind_assoc]
    refine bind_congr fun cs => ?_
    rw [bind_assoc]
    rfl
  · rw [Stmt.ofTree_conditional, bind_assoc]
    refine bind_congr fun cs => ?_
    rw [bind_assoc]
    rfl
  · rw [Stmt.ofTree, Item.ofTree]
    cases Expr.ofTree t <;> rfl

theorem Item.ofTree_eq {tag : Tag} {t : Tree} {s : Stmt} {i : Item}
    (htag : tag = .functionDefinition ∨ tag = .conditional ∨ tag = .returns)
    (hs : Stmt.ofTree tag t = .ok s) (hi : Item.ofStmt? s = some i) :
    Item.ofTree tag t = .ok i := by
  rw [Item.ofTree_eq_bind t htag, hs]
  simp only [bind, Except.bind, hi]

/-- A document with an open number is read as the program with the number in its place. -/
theorem Program.Site.ofTree_eq {F : Number → Tree} {P : Number → Program}
    (h : Program.Site F P) (x : Number) : Program.ofTree (F x) = .ok (P x) := by
  cases h with
  | item hroot h htag hbefore hstmt hitem hafter =>
    rw [hroot, Program.ofTree, if_pos rfl, Program.ofPayload, h.bind_eq, itemsOf_append, hbefore]
    simp only [bind, Except.bind, itemsOf, Item.ofTree_eq htag (hstmt.ofTree_eq x) (hitem x),
      hafter]
    rfl

end TreeWalk
