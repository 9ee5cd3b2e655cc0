-- SUMMARY: The roles of children, and that their order does not matter across roles.
import TreeWalk.Proofs.Interchange

/-! # The order of children

A call is sorted into a name and its arguments, a definition into a name, parameters and a
body, and so on. The sorters keep the order within each of these roles, and nothing else of the
order of the children. The entries of a node may thus be written in any order that keeps the
order within the roles.

Where a document is refused, the order may decide for which reason, so only the programs are
the same.
-/

namespace TreeWalk

/-! ## Roles -/

/-- What a child is to its node. -/
inductive Role
  | name
  | parameter
  | argument
  | operator
  | operand
  | condition
  | initializer
  | statement
  deriving DecidableEq

/-- The nodes whose children have several roles. -/
def Tag.sorted : List Tag :=
  [.functionCall, .builtInFunction, .functionDefinition, .conditional, .variableDeclaration]

/-- The role of a child with this tag in such a node, if it may have children with this tag. -/
def Tag.role? : (parent tag : Tag) → Option Role
  | .functionCall, .name => some .name
  | .functionCall, .expression => some .argument
  | .builtInFunction, .equality | .builtInFunction, .plus | .builtInFunction, .minus =>
    some .operator
  | .builtInFunction, .expression => some .operand
  | .functionDefinition, .name => some .name
  | .functionDefinition, .parameter => some .parameter
  | .functionDefinition, _ => some .statement
  | .conditional, .expression => some .condition
  | .conditional, _ => some .statement
  | .variableDeclaration, .name => some .name
  | .variableDeclaration, .value | .variableDeclaration, .expression => some .initializer
  | _, _ => none

def Tag.entryRole? (parent : Tag) (e : String × Tree) : Option Role :=
  (Tag.ofText? e.1).bind parent.role?

def Tag.childRole? (parent : Tag) (c : Tag × Tree) : Option Role :=
  parent.role? c.1

/-- The same things in another order, which keeps the order within each role. -/
structure Regrouped {α : Type} (role? : α → Option Role) (xs ys : List α) : Prop where
  perm : xs.Perm ys
  order : ∀ role, xs.filter (fun x => role? x = some role) = ys.filter fun x => role? x = some role

/-- `Tree.Reordered place t t'` holds if `t'` is `t` with the entries of any number of nodes in
    another order that keeps the order within each role. The tree stands under `place`, unless
    it is a whole document or stands under a key that is no tag. -/
inductive Tree.Reordered : Option Tag → Tree → Tree → Prop
  | null {place : Option Tag} : Reordered place .null .null
  | scalar {place : Option Tag} (v : Value) : Reordered place (.scalar v) (.scalar v)
  | list {place : Option Tag} {xs ys : List Tree} :
      xs.length = ys.length → (∀ {x y}, (x, y) ∈ xs.zip ys → Reordered place x y) →
        Reordered place (.list xs) (.list ys)
  | object {place : Option Tag} {es fs : List (String × Tree)} :
      List.Forall₂ (fun e f => e.1 = f.1) es fs →
        (∀ {e f}, (e, f) ∈ es.zip fs → Reordered (Tag.ofText? e.1) e.2 f.2) →
          Reordered place (.object es) (.object fs)
  | regroup {parent : Tag} {t : Tree} {es fs : List (String × Tree)} :
      Reordered (some parent) t (.object es) → parent ∈ Tag.sorted →
        Regrouped parent.entryRole? es fs → Reordered (some parent) t (.object fs)

/-! ## Entries and their children -/

namespace CleanEntries

variable {es fs : List (String × Tree)} {cs ds : List (Tag × Tree)}

theorem children_eq (h : CleanEntries es cs) (h' : CleanEntries es ds) : cs = ds :=
  Except.ok.inj (((@entriesChildren_eq_ok_iff .program es cs).mpr h).symm.trans
    (entriesChildren_eq_ok_iff.mpr h'))

/-- Entries with some tags stand for the children with these tags. -/
theorem filter (h : CleanEntries es cs) (p : Tag → Bool) :
    CleanEntries (es.filter fun e => (Tag.ofText? e.1).any p) (cs.filter fun c => p c.1) := by
  induction h with
  | nil => exact .nil
  | @cons tag t _ _ hoperator _ ih =>
    cases hp : p tag with
    | true =>
      have hchildren : (t.items.map (Prod.mk tag)).filter (fun c => p c.1) =
          t.items.map (Prod.mk tag) := by
        rw [List.filter_eq_self]
        simp [hp]
      rw [List.filter_cons_of_pos (by simpa [Tag.ofText?_text] using hp), List.filter_append,
        hchildren]
      exact .cons hoperator ih
    | false =>
      have hchildren : (t.items.map (Prod.mk tag)).filter (fun c => p c.1) = [] := by
        rw [List.filter_eq_nil_iff]
        simp [hp]
      rw [List.filter_cons_of_neg (by simpa [Tag.ofText?_text] using hp), List.filter_append,
        hchildren]
      exact ih

theorem perm (h : CleanEntries es cs) (hperm : es.Perm fs) :
    ∃ ds, CleanEntries fs ds ∧ cs.Perm ds := by
  induction hperm generalizing cs with
  | nil => exact ⟨cs, h, .refl cs⟩
  | cons e _ ih =>
    cases h with
    | cons hoperator hrest =>
      obtain ⟨ds, hds, hperm⟩ := ih hrest
      exact ⟨_, .cons hoperator hds, hperm.append_left _⟩
  | swap e f es =>
    cases h with
    | cons hoperator hrest =>
      cases hrest with
      | cons hoperator' hrest =>
        exact ⟨_, .cons hoperator' (.cons hoperator hrest), List.perm_append_comm_assoc _ _ _⟩
  | trans _ _ ih ih' =>
    obtain ⟨ds, hds, hperm⟩ := ih h
    obtain ⟨ds', hds', hperm'⟩ := ih' hds
    exact ⟨ds', hds', hperm.trans hperm'⟩

end CleanEntries

namespace Regrouped

section

variable {α : Type} {role? : α → Option Role} {xs ys : List α}

theorem symm (h : Regrouped role? xs ys) : Regrouped role? ys xs :=
  ⟨h.perm.symm, fun role => (h.order role).symm⟩

/-- Neighbours of different roles may change places. -/
theorem swap {x y : α} (h : role? x ≠ role? y) (xs : List α) :
    Regrouped role? (x :: y :: xs) (y :: x :: xs) where
  perm := .swap y x xs
  order role := by
    by_cases hx : role? x = some role
    · have hy : role? y ≠ some role := hx ▸ h.symm
      simp [hx, hy]
    · simp [List.filter_cons, hx]

/-- What is picked by its role is picked in the same order. -/
theorem filter_eq (h : Regrouped role? xs ys) (role : Role) {p : α → Bool}
    (hp : ∀ x ∈ xs, p x = true ↔ role? x = some role) : xs.filter p = ys.filter p := by
  have hp' : ∀ x ∈ ys, p x = true ↔ role? x = some role :=
    fun x hx => hp x (h.perm.mem_iff.mpr hx)
  calc xs.filter p = xs.filter fun x => role? x = some role :=
        List.filter_congr fun x hx => Bool.eq_iff_iff.mpr ((hp x hx).trans decide_eq_true_iff.symm)
    _ = ys.filter fun x => role? x = some role := h.order role
    _ = ys.filter p :=
        List.filter_congr fun x hx => Bool.eq_iff_iff.mpr (decide_eq_true_iff.trans (hp' x hx).symm)

end

variable {parent : Tag}

/-- Entries in another order stand for the same children in another order. -/
theorem children {es fs : List (String × Tree)} (h : Regrouped parent.entryRole? es fs)
    {cs : List (Tag × Tree)} (hcs : CleanEntries es cs) :
    ∃ ds, CleanEntries fs ds ∧ Regrouped parent.childRole? cs ds := by
  obtain ⟨ds, hds, hperm⟩ := hcs.perm h.perm
  refine ⟨ds, hds, hperm, fun role => ?_⟩
  have hentry : ∀ e, decide (parent.entryRole? e = some role) =
      (Tag.ofText? e.1).any fun tag => decide (parent.role? tag = some role) := by
    intro e
    unfold Tag.entryRole?
    cases Tag.ofText? e.1 <;> simp
  have horder := h.order role
  simp only [hentry] at horder
  exact (hcs.filter _).children_eq (horder ▸ hds.filter _)

/-! ## Sorters -/

variable {cs ds : List (Tag × Tree)}

theorem payloads_eq (h : Regrouped parent.childRole? cs ds) {tag : Tag} (role : Role)
    (hrole : ∀ t, parent.role? t = some role ↔ t = tag) : payloads tag cs = payloads tag ds :=
  congrArg (List.map Prod.snd)
    (h.filter_eq role fun c _ => decide_eq_true_iff.trans (hrole c.1).symm)

theorem without_eq (h : Regrouped parent.childRole? cs ds) {tags : List Tag} (role : Role)
    (hrole : ∀ t, parent.role? t = some role ↔ t ∉ tags) : without tags cs = without tags ds :=
  h.filter_eq role fun c _ => decide_eq_true_iff.trans (hrole c.1).symm

theorem operators_eq (h : Regrouped Tag.builtInFunction.childRole? cs ds) :
    cs.filterMap (fun c => c.1.operator?) = ds.filterMap fun c => c.1.operator? := by
  have hoperators : ∀ cs : List (Tag × Tree), cs.filterMap (fun c => c.1.operator?) =
      (cs.filter fun c => c.1.isOperator).filterMap fun c => c.1.operator? := by
    intro cs
    rw [List.filterMap_filter]
    refine List.filterMap_congr fun c _ => ?_
    cases c.1 <;> rfl
  rw [hoperators cs, hoperators ds, h.filter_eq .operator]
  rintro ⟨tag, c⟩ -
  cases tag <;> simp [Tag.isOperator, Tag.childRole?, Tag.role?]

/-- The children of a declaration that can be read all have a role. -/
theorem tags_of_declarationParts {expr : Tree → Except ShapeError Expr}
    {former name : Option Name} {first value : Option Initializer}
    (h : declarationParts id expr former first cs = .ok (name, value)) :
    ∀ c ∈ cs, c.1 = .name ∨ c.1 = .value ∨ c.1 = .expression := by
  obtain ⟨-, values, hvalues, -⟩ := declarationParts_eq_ok_iff.mp h
  intro c hc
  by_cases hname : c.1 = .name
  · exact .inl hname
  have hc : c ∈ without [.name] cs := mem_without.mpr ⟨hc, by simpa using hname⟩
  obtain ⟨i, -, hi⟩ := exists_mem_of_forall₂ hvalues.flip hc
  obtain ⟨tag, t⟩ := c
  cases tag with
  | value | expression => simp
  | name => contradiction
  | _ => cases hi

theorem values_eq (h : Regrouped Tag.variableDeclaration.childRole? cs ds)
    (hcs : ∀ c ∈ cs, c.1 = .name ∨ c.1 = .value ∨ c.1 = .expression) :
    without [.name] cs = without [.name] ds := by
  refine h.filter_eq .initializer fun c hc => ?_
  rcases hcs c hc with htag | htag | htag <;> simp [Tag.childRole?, Tag.role?, htag]

/-- A declaration has only children with roles, or it is refused in any order. -/
theorem declarationParts_eq_ok {expr : Tree → Except ShapeError Expr}
    (h : Regrouped Tag.variableDeclaration.childRole? cs ds) {former name : Option Name}
    {first value : Option Initializer}
    (hparts : declarationParts id expr former first cs = .ok (name, value)) :
    declarationParts id expr former first ds = .ok (name, value) := by
  have hname : payloads .name cs = payloads .name ds :=
    h.payloads_eq .name (by rintro ⟨⟩ <;> decide)
  have hvalues := h.values_eq (tags_of_declarationParts hparts)
  rw [declarationParts_eq_ok_iff] at hparts ⊢
  rwa [← hname, ← hvalues]

/-- Children in another order are read as the same. -/
theorem readAlike (h : Regrouped parent.childRole? cs ds) (hparent : parent ∈ Tag.sorted) :
    ReadAlike (fun _ => ()) parent cs ds := by
  cases parent with
  | functionCall =>
    have hname : payloads .name cs = payloads .name ds :=
      h.payloads_eq .name (by rintro ⟨⟩ <;> decide)
    have harguments : payloads .expression cs = payloads .expression ds :=
      h.payloads_eq .argument (by rintro ⟨⟩ <;> decide)
    refine fun name => .of_forall_iff fun ⟨_, _⟩ => ?_
    simp only [callParts_eq_ok_iff, hname, harguments, h.perm.mem_iff]
  | builtInFunction =>
    have hoperands : payloads .expression cs = payloads .expression ds :=
      h.payloads_eq .operand (by rintro ⟨⟩ <;> decide)
    refine .of_forall_iff fun ⟨_, _⟩ => ?_
    simp only [builtInParts_eq_ok_iff, h.operators_eq, hoperands, h.perm.mem_iff]
  | functionDefinition =>
    have hname : payloads .name cs = payloads .name ds :=
      h.payloads_eq .name (by rintro ⟨⟩ <;> decide)
    have hparameters : payloads .parameter cs = payloads .parameter ds :=
      h.payloads_eq .parameter (by rintro ⟨⟩ <;> decide)
    have hbody : without [.name, .parameter] cs = without [.name, .parameter] ds :=
      h.without_eq .statement (by rintro ⟨⟩ <;> decide)
    refine fun name => .of_forall_iff fun ⟨_, _, _⟩ => ?_
    simp only [definitionParts_eq_ok_iff, hname, hparameters, hbody]
  | conditional =>
    have hconditions : payloads .expression cs = payloads .expression ds :=
      h.payloads_eq .condition (by rintro ⟨⟩ <;> decide)
    have hbody : without [.expression] cs = without [.expression] ds :=
      h.without_eq .statement (by rintro ⟨⟩ <;> decide)
    refine .of_forall_iff fun ⟨_, _⟩ => ?_
    simp only [conditionalParts_eq_ok_iff, hconditions, hbody]
  | variableDeclaration =>
    exact fun name value => .of_forall_iff fun parts =>
      ⟨h.declarationParts_eq_ok, h.symm.declarationParts_eq_ok⟩
  | _ => exact absurd hparent (by decide)

/-- Objects with their entries in another order are both broken, or have children that are read
    as the same. -/
theorem alike {es fs : List (String × Tree)} (h : Regrouped parent.entryRole? es fs)
    (hparent : parent ∈ Tag.sorted) :
    Alike (fun _ => ()) (ReadAlike (fun _ => ()) parent) (entriesChildren parent es)
      (entriesChildren parent fs) := by
  cases hes : entriesChildren parent es with
  | ok cs =>
    obtain ⟨ds, hds, hchildren⟩ := h.children (entriesChildren_eq_ok_iff.mp hes)
    rw [entriesChildren_eq_ok_iff.mpr hds]
    exact .ok (hchildren.readAlike hparent)
  | error e =>
    cases hfs : entriesChildren parent fs with
    | error e' => exact .error rfl
    | ok ds =>
      obtain ⟨cs, hcs, -⟩ := h.symm.children (entriesChildren_eq_ok_iff.mp hfs)
      rw [entriesChildren_eq_ok_iff.mpr hcs] at hes
      cases hes

end Regrouped

/-! ## Documents -/

theorem Tag.node_of_sorted {tag : Tag} (h : tag ∈ sorted) : tag.node = tag := by
  cases tag with
  | returns => exact absurd h (by decide)
  | _ => rfl

namespace Tree.Reordered

/-- The order of roles does not matter to anything that looks at a tree or at its items. -/
theorem items_and_sameUnder {place : Option Tag} {t t' : Tree} (h : Reordered place t t')
    {tag : Tag} (hplace : place = some tag) :
    List.Forall₂ (SameUnder (fun _ => ()) tag) t.items t'.items ∧
      SameUnder (fun _ => ()) tag t t' := by
  induction h generalizing tag with
  | null => exact ⟨.cons (.refl _ tag .null) .nil, .refl _ tag .null⟩
  | scalar v => exact ⟨.cons (.refl _ tag (.scalar v)) .nil, .refl _ tag (.scalar v)⟩
  | list hlength _ ih =>
    exact ⟨List.forall₂_iff_zip.mpr ⟨hlength, fun hmem => (ih hmem hplace).2⟩,
      .of_children rfl (.error rfl)⟩
  | @object _ es fs hkeys _ ih =>
    have hentries : List.Forall₂ (fun e f => Alike (fun _ : ShapeError => ())
        (List.Forall₂ fun c d => c.1 = d.1 ∧ SameUnder (fun _ => ()) c.1 c.2 d.2)
        (entryChildren tag.node e.1 e.2) (entryChildren tag.node f.1 f.2)) es fs := by
      rw [List.forall₂_iff_zip] at hkeys ⊢
      refine ⟨hkeys.1, fun {e f} hmem => ?_⟩
      rw [← hkeys.2 hmem]
      exact entryChildren_alike fun tag' htag =>
        (ih hmem htag).1.imp fun _ _ hsame => ⟨rfl, hsame⟩
    have hsame : SameUnder (fun _ => ()) tag (.object es) (.object fs) := by
      refine .of_children rfl (readAlike_of_entries hentries ?_)
      rintro _ _ _ _ ⟨tag', c⟩ _ ⟨_, d⟩ _ ⟨rfl, hchild⟩ _
      exact hchild.readAlike tag.node
    exact ⟨.cons hsame .nil, hsame⟩
  | @regroup parent t es fs _ hparent hregrouped ih =>
    obtain rfl := Option.some.inj hplace
    have hobject : SameUnder (fun _ => ()) parent (.object es) (.object fs) := by
      refine .of_children rfl ?_
      rw [Tag.node_of_sorted hparent]
      exact hregrouped.alike hparent
    obtain ⟨hitems, hsame⟩ := ih rfl
    obtain ⟨item, _, hitem, hrest, hitems⟩ := List.forall₂_cons_right_iff.mp hitems
    obtain rfl := List.forall₂_nil_right_iff.mp hrest
    exact ⟨hitems ▸ .cons (hitem.trans hobject) .nil, hsame.trans hobject⟩

theorem single {place : Option Tag} {tag : Tag} {t t' : Tree} (h : Reordered (some tag) t t') :
    Reordered place (.object [(tag.text, t)]) (.object [(tag.text, t')]) := by
  refine .object (.cons rfl .nil) fun hmem => ?_
  obtain ⟨rfl, rfl⟩ := Prod.mk.inj (List.mem_singleton.mp hmem)
  rwa [Tag.ofText?_text]

/-- Two entries of different roles, the other way round. -/
theorem pair {parent tag tag' : Tag} {t t' u u' : Tree} (hparent : parent ∈ Tag.sorted)
    (hroles : parent.role? tag ≠ parent.role? tag') (h : Reordered (some tag) t t')
    (h' : Reordered (some tag') u u') :
    Reordered (some parent) (.object [(tag.text, t), (tag'.text, u)])
      (.object [(tag'.text, u'), (tag.text, t')]) := by
  have hobject : Reordered (some parent) (.object [(tag.text, t), (tag'.text, u)])
      (.object [(tag.text, t'), (tag'.text, u')]) := by
    refine .object (.cons rfl (.cons rfl .nil)) fun hmem => ?_
    rcases List.mem_cons.mp hmem with hmem | hmem
    · obtain ⟨rfl, rfl⟩ := Prod.mk.inj hmem
      rwa [Tag.ofText?_text]
    · obtain ⟨rfl, rfl⟩ := Prod.mk.inj (List.mem_singleton.mp hmem)
      rwa [Tag.ofText?_text]
  refine .regroup hobject hparent (.swap ?_ [])
  simpa [Tag.entryRole?, Tag.ofText?_text] using hroles

end Tree.Reordered

/-- The order of siblings of different roles does not matter: whatever nodes have their entries
    in another order, the document means the same program, or none. -/
theorem order_of_roles_does_not_matter {t t' : Tree} (h : Tree.Reordered none t t') (p : Program) :
    Program.ofTree t = .ok p ↔ Program.ofTree t' = .ok p := by
  cases h with
  | null | scalar | list => rfl
  | @object _ es fs hkeys hentries =>
    have hsame : SameResult (fun _ => ()) (Program.ofTree (.object es))
        (Program.ofTree (.object fs)) := by
      refine Program.ofTree_same ?_
      rw [List.forall₂_iff_zip] at hkeys ⊢
      refine ⟨hkeys.1, fun {e f} hmem => ⟨hkeys.2 hmem, fun hkey => ?_⟩⟩
      exact ((hentries hmem).items_and_sameUnder (hkey ▸ Tag.ofText?_text .program)).2
    exact hsame.eq_ok_iff p

/-- A conditional that returns a call with a list of two arguments. In both nodes, the entries
    are in this order. -/
def Tree.orderSample (literal : Tree) (order : List (String × Tree) → List (String × Tree)) :
    Tree :=
  let call := .object (order [(Tag.name.text, .string "f"),
    (Tag.expression.text, .list [literal, literal])])
  .object [(Tag.program.text, .object [(Tag.conditional.text, .object (order [
    (Tag.expression.text, literal),
    (Tag.returns.text, .object [(Tag.functionCall.text, call)])]))])]

/-- Both nodes with their entries the other way round. -/
theorem order_of_roles_does_not_matter_sample :
    let literal := Tree.object [(Tag.boolean.text, .scalar (.boolean true))]
    Tree.Reordered none (.orderSample literal id) (.orderSample literal List.reverse) ∧
      ∀ p, Program.ofTree (.orderSample literal id) = .ok p ↔
        Program.ofTree (.orderSample literal List.reverse) = .ok p := by
  intro literal
  have hliteral : Tree.Reordered (some .expression) literal literal := .single (.scalar _)
  have harguments : Tree.Reordered (some .expression) (.list [literal, literal])
      (.list [literal, literal]) :=
    .list rfl fun hmem => by
      obtain ⟨rfl, rfl⟩ : _ ∧ _ := by simpa using hmem
      exact hliteral
  have hreordered : Tree.Reordered none (.orderSample literal id)
      (.orderSample literal List.reverse) :=
    .single (.single (.pair (by decide) (by decide) hliteral
      (.single (.pair (by decide) (by decide) (.scalar _) harguments))))
  exact ⟨hreordered, order_of_roles_does_not_matter hreordered⟩

end TreeWalk
