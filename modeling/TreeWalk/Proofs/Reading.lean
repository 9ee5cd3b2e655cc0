-- SUMMARY: What a tree that can be read is like, one step at a time.
import TreeWalk.Proofs.Shape

/-! # Reading a tree

A tree can be read only if it is an object with nothing wrong in its entries: `Tree.Clean`
says so, and lists the children. Among the children of a node, each tag has a role. The
sorters take the children one by one and in any order of roles; if they succeed, what they
give is what the children of each role give by themselves. That is what the `…Parts_eq_ok_iff`
lemmas say.

`Expr.ReadFrom`, `Stmt.ReadFrom` and `Item.ReadFrom` put this together for a whole node. They
are the one step in which a reader succeeds, and speak of the smaller trees by the readers
themselves.
-/

namespace TreeWalk

variable {α β ε : Type}

/-! ## Results -/

theorem bind_eq_ok_iff {result : Except ε α} {next : α → Except ε β} {b : β} :
    result >>= next = .ok b ↔ ∃ a, result = .ok a ∧ next a = .ok b := by
  cases result with
  | error e => simp [bind, Except.bind]
  | ok a => simp [bind, Except.bind]

theorem map_eq_ok_iff {result : Except ε α} {f : α → β} {b : β} :
    result.map f = .ok b ↔ ∃ a, result = .ok a ∧ f a = b := by
  cases result <;> simp [Except.map]

theorem exists_mem_of_forall₂ {R : α → β → Prop} {as : List α} {bs : List β}
    (h : List.Forall₂ R as bs) {b : β} (hb : b ∈ bs) : ∃ a ∈ as, R a b := by
  induction h with
  | nil => cases hb
  | cons h _ ih =>
    cases hb with
    | head => exact ⟨_, List.mem_cons_self, h⟩
    | tail _ hb =>
      obtain ⟨a, ha, h⟩ := ih hb
      exact ⟨a, List.mem_cons_of_mem _ ha, h⟩

/-! ## Clean objects -/

/-- What an entry with this payload stands for: the items of a list, or the payload. -/
def Tree.items : Tree → List Tree
  | .list xs => xs
  | t => [t]

/-- Entries whose keys are tags, no operator among them with an empty list, and the children
    that they stand for. -/
inductive CleanEntries : List (String × Tree) → List (Tag × Tree) → Prop
  | nil : CleanEntries [] []
  | cons {tag : Tag} {t : Tree} {entries : List (String × Tree)} {cs : List (Tag × Tree)}
      (hoperator : tag.isOperator = true → t ≠ .list []) (hrest : CleanEntries entries cs) :
      CleanEntries ((tag.text, t) :: entries) (t.items.map (Prod.mk tag) ++ cs)

/-- An object with clean entries, and its children. -/
inductive Tree.Clean : Tree → List (Tag × Tree) → Prop
  | object {entries : List (String × Tree)} {cs : List (Tag × Tree)}
      (hentries : CleanEntries entries cs) : Clean (.object entries) cs

theorem ofText_eq_ok_iff {key : String} {tag : Tag} :
    Tag.ofText key = .ok tag ↔ key = tag.text := by
  unfold Tag.ofText
  constructor
  · intro h
    split at h
    · next hkey =>
      cases h
      exact (Tag.text_of_ofText? hkey).symm
    · cases h
  · rintro rfl
    rw [Tag.ofText?_text]

theorem entryChildren_eq_ok_iff {parent : Tag} {key : String} {t : Tree}
    {cs : List (Tag × Tree)} :
    entryChildren parent key t = .ok cs ↔ ∃ tag : Tag, key = tag.text ∧
      (tag.isOperator = true → t ≠ .list []) ∧ cs = t.items.map (Prod.mk tag) := by
  rw [entryChildren, bind_eq_ok_iff]
  refine exists_congr fun tag => ?_
  rw [ofText_eq_ok_iff]
  refine and_congr_right fun _ => ?_
  cases t with
  | list items =>
    cases items with
    | nil => cases tag.isOperator <;> simp [Tree.items, eq_comm (b := cs)]
    | cons item items => simp [Tree.items, eq_comm (b := cs)]
  | null | scalar v | object entries => simp [Tree.items, eq_comm (b := cs)]

theorem entriesChildren_eq_ok_iff {parent : Tag} {entries : List (String × Tree)}
    {cs : List (Tag × Tree)} :
    entriesChildren parent entries = .ok cs ↔ CleanEntries entries cs := by
  induction entries generalizing cs with
  | nil =>
    constructor
    · intro h
      cases h
      exact .nil
    · intro h
      cases h
      rfl
  | cons entry entries ih =>
    obtain ⟨key, t⟩ := entry
    simp only [entriesChildren, bind_eq_ok_iff, entryChildren_eq_ok_iff, ih]
    constructor
    · rintro ⟨first, ⟨tag, rfl, hoperator, rfl⟩, others, hothers, h⟩
      cases h
      exact .cons hoperator hothers
    · intro h
      cases h with
      | @cons tag _ _ cs hoperator hrest =>
        exact ⟨_, ⟨tag, rfl, hoperator, rfl⟩, cs, hrest, rfl⟩

namespace Tree

theorem children_eq_ok_iff {t : Tree} {parent : Tag} {cs : List (Tag × Tree)} :
    t.children parent = .ok cs ↔ t.Clean cs := by
  cases t with
  | object entries =>
    rw [children, entriesChildren_eq_ok_iff]
    constructor
    · exact .object
    · intro h
      cases h with
      | object h => exact h
  | null | scalar v | list items =>
    constructor
    · intro h
      cases h
    · intro h
      cases h

theorem children_bind_eq_ok_iff {t : Tree} {parent : Tag}
    {next : List (Tag × Tree) → Except ShapeError β} {b : β} :
    t.children parent >>= next = .ok b ↔ ∃ cs, t.Clean cs ∧ next cs = .ok b := by
  simp only [bind_eq_ok_iff, children_eq_ok_iff]

/-- A node is read by sorting its children and making something of the parts. -/
theorem sorted_bind_eq_ok_iff {t : Tree} {parent : Tag}
    {sorter : List (Tag × Tree) → Except ShapeError α} {next : α → Except ShapeError β} {b : β} :
    (t.children parent >>= fun cs => sorter cs >>= next) = .ok b ↔
      ∃ cs parts, t.Clean cs ∧ sorter cs = .ok parts ∧ next parts = .ok b := by
  simp only [bind_eq_ok_iff, children_eq_ok_iff, exists_and_left]

/-- Children are smaller than their node. -/
theorem Clean.sizeOf_lt {t : Tree} {cs : List (Tag × Tree)} (h : t.Clean cs) {c : Tag × Tree}
    (hc : c ∈ cs) : sizeOf c.2 < sizeOf t := by
  have hcs : t.children .program = .ok cs := children_eq_ok_iff.mpr h
  exact sizeOf_of_children hcs hc

theorem Clean.sizeOf_only {t c : Tree} {tag : Tag} (h : t.Clean [(tag, c)]) :
    sizeOf c < sizeOf t :=
  h.sizeOf_lt (List.mem_singleton_self (tag, c))

end Tree

/-! ## Roles -/

/-- The payloads of the children with a tag, in order. -/
def payloads (tag : Tag) (cs : List (Tag × Tree)) : List Tree :=
  (cs.filter fun c => c.1 = tag).map Prod.snd

/-- The children with other tags than these, in order. -/
def without (tags : List Tag) (cs : List (Tag × Tree)) : List (Tag × Tree) :=
  cs.filter fun c => c.1 ∉ tags

section

variable {tag : Tag} {tags : List Tag} {c : Tag × Tree} {t : Tree} {cs : List (Tag × Tree)}

@[simp] theorem payloads_nil : payloads tag [] = [] :=
  rfl

@[simp] theorem payloads_cons_self : payloads tag ((tag, t) :: cs) = t :: payloads tag cs := by
  simp [payloads]

theorem payloads_cons_of_ne {other : Tag} (h : other ≠ tag) :
    payloads tag ((other, t) :: cs) = payloads tag cs := by
  simp [payloads, h]

@[simp] theorem mem_payloads : t ∈ payloads tag cs ↔ (tag, t) ∈ cs := by
  simp [payloads]

@[simp] theorem without_nil : without tags [] = [] :=
  rfl

theorem without_cons_of_mem (h : tag ∈ tags) :
    without tags ((tag, t) :: cs) = without tags cs := by
  simp [without, h]

theorem without_cons_of_notMem (h : tag ∉ tags) :
    without tags ((tag, t) :: cs) = (tag, t) :: without tags cs := by
  simp [without, h]

@[simp] theorem mem_without : c ∈ without tags cs ↔ c ∈ cs ∧ c.1 ∉ tags := by
  simp [without]

end

/-- The operator that a tag names, if it names one. -/
def Tag.operator? : Tag → Option Operator
  | .equality => some .equality
  | .plus => some .plus
  | .minus => some .minus
  | _ => none

/-! ### Names -/

def Tree.string (s : String) : Tree :=
  .scalar (.string s)

/-- The name children of a node with this name. -/
def nameTrees (name : Option Name) : List Tree :=
  name.toList.map Tree.string

theorem nameOf_eq_ok_iff {t : Tree} {x : Name} : nameOf t = .ok x ↔ t = .string x := by
  unfold nameOf Tree.string
  split <;> simp_all

theorem parameterOf_eq_ok_iff {t : Tree} {x : Name} : parameterOf t = .ok x ↔ t = .string x := by
  unfold parameterOf Tree.string
  split <;> simp_all

theorem onlyName_eq_ok_iff {parent : Tag} {former name : Option Name} {t : Tree} :
    onlyName parent former t = .ok name ↔ nameTrees former ++ [t] = nameTrees name := by
  cases former with
  | some x =>
    cases name <;> simp [onlyName, nameTrees]
  | none =>
    simp only [onlyName, Option.isSome_none, Bool.false_eq_true, if_false, map_eq_ok_iff,
      nameOf_eq_ok_iff]
    cases name <;> simp [nameTrees]

@[simp] theorem nameTrees_inj {name name' : Option Name} :
    nameTrees name = nameTrees name' ↔ name = name' := by
  cases name <;> cases name' <;> simp [nameTrees, Tree.string]

/-- A name child and the names after it are the name of the node, if nothing before them is. -/
theorem exists_onlyName_iff {parent : Tag} {former name : Option Name} {t : Tree}
    {ts : List Tree} {p : Prop} :
    (∃ next, onlyName parent former t = .ok next ∧
      nameTrees next ++ ts = nameTrees name ∧ p) ↔
        nameTrees former ++ t :: ts = nameTrees name ∧ p := by
  simp only [onlyName_eq_ok_iff]
  constructor
  · rintro ⟨next, hnext, h, hp⟩
    refine ⟨?_, hp⟩
    rw [← h, ← hnext, List.append_assoc, List.singleton_append]
  · rintro ⟨h, hp⟩
    refine ⟨name, ?_, ?_, hp⟩
    · cases former <;> cases name <;> simp_all [nameTrees]
    · cases former <;> cases name <;> simp_all [nameTrees]

/-! ### Sorters -/

section Sorters

variable {expr : Tree → Except ShapeError Expr} {stmt : Tag → Tree → Except ShapeError Stmt}
  {cs : List (Tag × Tree)} {former name : Option Name} {es : List Expr} {body : List Stmt}

theorem accessParts_eq_ok_iff :
    accessParts id former cs = .ok name ↔
      nameTrees former ++ payloads .name cs = nameTrees name ∧ ∀ c ∈ cs, c.1 = .name := by
  induction cs generalizing former with
  | nil => simp [accessParts]
  | cons c cs ih =>
    obtain ⟨tag, t⟩ := c
    cases tag with
    | name =>
      simp only [accessParts, bind_eq_ok_iff, ih, payloads_cons_self, exists_onlyName_iff, id]
      simp
    | _ => simp [accessParts]

theorem callParts_eq_ok_iff :
    callParts id expr former cs = .ok (name, es) ↔
      nameTrees former ++ payloads .name cs = nameTrees name ∧
      (∀ c ∈ cs, c.1 = .name ∨ c.1 = .expression) ∧
      List.Forall₂ (fun c e => expr c = .ok e) (payloads .expression cs) es := by
  induction cs generalizing former es with
  | nil => simp [callParts]
  | cons c cs ih =>
    obtain ⟨tag, t⟩ := c
    cases tag with
    | name =>
      rw [payloads_cons_of_ne (show Tag.name ≠ .expression by decide)]
      simp only [callParts, bind_eq_ok_iff, ih, payloads_cons_self, exists_onlyName_iff, id]
      simp
    | expression =>
      rw [payloads_cons_of_ne (show Tag.expression ≠ .name by decide), payloads_cons_self]
      simp only [callParts, bind_eq_ok_iff]
      constructor
      · rintro ⟨e, he, ⟨name', es'⟩, hrest, h⟩
        cases h
        obtain ⟨hname, htags, hes⟩ := ih.mp hrest
        exact ⟨hname, by simpa using htags, .cons he hes⟩
      · rintro ⟨hname, htags, hes⟩
        cases hes with
        | @cons _ e _ es' he hes =>
          have htags' := fun c hc => htags c (List.mem_cons_of_mem _ hc)
          exact ⟨e, he, (name, es'), ih.mpr ⟨hname, htags', hes⟩, rfl⟩
    | _ => simp [callParts]

theorem builtInParts_eq_ok_iff {operators : List Operator} :
    builtInParts expr cs = .ok (operators, es) ↔
      (∀ c ∈ cs, c.1.isOperator = true ∨ c.1 = .expression) ∧
      operators = cs.filterMap (fun c => c.1.operator?) ∧
      List.Forall₂ (fun c e => expr c = .ok e) (payloads .expression cs) es := by
  induction cs generalizing operators es with
  | nil => simp [builtInParts, eq_comm (b := operators)]
  | cons c cs ih =>
    obtain ⟨tag, t⟩ := c
    cases tag with
    | equality | plus | minus =>
      rw [payloads_cons_of_ne (by simp)]
      simp only [builtInParts, map_eq_ok_iff, List.filterMap_cons, Tag.operator?]
      constructor
      · rintro ⟨⟨operators', es'⟩, hrest, h⟩
        cases h
        obtain ⟨htags, rfl, hes⟩ := ih.mp hrest
        exact ⟨by simpa [Tag.isOperator] using htags, rfl, hes⟩
      · rintro ⟨htags, rfl, hes⟩
        have htags' := fun c hc => htags c (List.mem_cons_of_mem _ hc)
        exact ⟨(_, es), ih.mpr ⟨htags', rfl, hes⟩, rfl⟩
    | expression =>
      rw [payloads_cons_self]
      simp only [builtInParts, bind_eq_ok_iff, List.filterMap_cons, Tag.operator?]
      constructor
      · rintro ⟨e, he, ⟨operators', es'⟩, hrest, h⟩
        cases h
        obtain ⟨htags, rfl, hes⟩ := ih.mp hrest
        exact ⟨by simpa using htags, rfl, .cons he hes⟩
      · rintro ⟨htags, rfl, hes⟩
        cases hes with
        | @cons _ e _ es' he hes =>
          have htags' := fun c hc => htags c (List.mem_cons_of_mem _ hc)
          exact ⟨e, he, (_, es'), ih.mpr ⟨htags', rfl, hes⟩, rfl⟩
    | _ => simp [builtInParts, Tag.isOperator]

theorem definitionParts_cons {tag : Tag} (hname : tag ≠ .name) (hparameter : tag ≠ .parameter)
    (t : Tree) :
    definitionParts id stmt former ((tag, t) :: cs) = do
      let s ← stmt tag t
      let (name, xs, body) ← definitionParts id stmt former cs
      return (name, xs, s :: body) := by
  cases tag with
  | name | parameter => contradiction
  | _ => rfl

theorem definitionParts_eq_ok_iff {xs : List Name} :
    definitionParts id stmt former cs = .ok (name, xs, body) ↔
      nameTrees former ++ payloads .name cs = nameTrees name ∧
      payloads .parameter cs = xs.map Tree.string ∧
      List.Forall₂ (fun c s => stmt c.1 c.2 = .ok s) (without [.name, .parameter] cs) body := by
  induction cs generalizing former xs body with
  | nil => simp [definitionParts, eq_comm (b := xs)]
  | cons c cs ih =>
    obtain ⟨tag, t⟩ := c
    by_cases hname : tag = .name
    · subst hname
      rw [payloads_cons_of_ne (show Tag.name ≠ .parameter by decide),
        without_cons_of_mem (by simp)]
      simp only [definitionParts, bind_eq_ok_iff, ih, payloads_cons_self, exists_onlyName_iff, id]
    by_cases hparameter : tag = .parameter
    · subst hparameter
      rw [payloads_cons_of_ne (show Tag.parameter ≠ .name by decide), payloads_cons_self,
        without_cons_of_mem (by simp)]
      simp only [definitionParts, bind_eq_ok_iff, parameterOf_eq_ok_iff, id]
      constructor
      · rintro ⟨x, rfl, ⟨name', xs', body'⟩, hrest, h⟩
        cases h
        obtain ⟨hname, hxs, hbody⟩ := ih.mp hrest
        exact ⟨hname, congrArg _ hxs, hbody⟩
      · rintro ⟨hname, hxs, hbody⟩
        obtain ⟨x, xs, rfl, rfl, hrest⟩ := List.map_eq_cons_iff.mp hxs.symm
        exact ⟨x, rfl, (name, xs, body), ih.mpr ⟨hname, hrest.symm, hbody⟩, rfl⟩
    · rw [definitionParts_cons hname hparameter, payloads_cons_of_ne hname,
        payloads_cons_of_ne hparameter, without_cons_of_notMem (by simp [hname, hparameter])]
      simp only [bind_eq_ok_iff]
      constructor
      · rintro ⟨s, hs, ⟨name', xs', body'⟩, hrest, h⟩
        cases h
        obtain ⟨hname, hxs, hbody⟩ := ih.mp hrest
        exact ⟨hname, hxs, .cons hs hbody⟩
      · rintro ⟨hname, hxs, hbody⟩
        cases hbody with
        | @cons _ s _ body hs hbody =>
          exact ⟨s, hs, (name, xs, body), ih.mpr ⟨hname, hxs, hbody⟩, rfl⟩

theorem conditionalParts_cons {tag : Tag} (htag : tag ≠ .expression) (t : Tree) :
    conditionalParts expr stmt ((tag, t) :: cs) = do
      let s ← stmt tag t
      let (es, body) ← conditionalParts expr stmt cs
      return (es, s :: body) := by
  cases tag with
  | expression => contradiction
  | _ => rfl

theorem conditionalParts_eq_ok_iff :
    conditionalParts expr stmt cs = .ok (es, body) ↔
      List.Forall₂ (fun c e => expr c = .ok e) (payloads .expression cs) es ∧
      List.Forall₂ (fun c s => stmt c.1 c.2 = .ok s) (without [.expression] cs) body := by
  induction cs generalizing es body with
  | nil => simp [conditionalParts]
  | cons c cs ih =>
    obtain ⟨tag, t⟩ := c
    by_cases htag : tag = .expression
    · subst htag
      rw [payloads_cons_self, without_cons_of_mem (by simp)]
      simp only [conditionalParts, bind_eq_ok_iff]
      constructor
      · rintro ⟨e, he, ⟨es', body'⟩, hrest, h⟩
        cases h
        obtain ⟨hes, hbody⟩ := ih.mp hrest
        exact ⟨.cons he hes, hbody⟩
      · rintro ⟨hes, hbody⟩
        cases hes with
        | @cons _ e _ es' he hes =>
          exact ⟨e, he, (es', body), ih.mpr ⟨hes, hbody⟩, rfl⟩
    · rw [conditionalParts_cons htag, payloads_cons_of_ne htag,
        without_cons_of_notMem (by simpa using htag)]
      simp only [bind_eq_ok_iff]
      constructor
      · rintro ⟨s, hs, ⟨es', body'⟩, hrest, h⟩
        cases h
        obtain ⟨hes, hbody⟩ := ih.mp hrest
        exact ⟨hes, .cons hs hbody⟩
      · rintro ⟨hes, hbody⟩
        cases hbody with
        | @cons _ s _ body hs hbody =>
          exact ⟨s, hs, (es, body), ih.mpr ⟨hes, hbody⟩, rfl⟩

/-- What a child of a declaration gives the variable. -/
def Initializer.ofChild (expr : Tree → Except ShapeError Expr) :
    Tag × Tree → Except ShapeError Initializer
  | (.value, t) => (scalarOf .value t).map literal
  | (.expression, t) => (expr t).map expression
  | (tag, _) => .error (.unexpectedChild tag .variableDeclaration)

theorem exists_onlyValue_iff {former value : Option Initializer} {i : Initializer}
    {values : List Initializer} :
    (∃ next, onlyValue former i = .ok next ∧ next.toList ++ values = value.toList) ↔
      former.toList ++ i :: values = value.toList := by
  cases former with
  | none => simp [onlyValue]
  | some i' => cases value <;> simp [onlyValue]

theorem declarationParts_cons {tag : Tag} (htag : tag ≠ .name) {value : Option Initializer}
    (t : Tree) :
    declarationParts id expr former value ((tag, t) :: cs) =
      Initializer.ofChild expr (tag, t) >>= fun i =>
        onlyValue value i >>= fun next => declarationParts id expr former next cs := by
  cases tag with
  | name => contradiction
  | value =>
    simp only [declarationParts, Initializer.ofChild, id]
    cases scalarOf .value t <;> rfl
  | expression =>
    simp only [declarationParts, Initializer.ofChild]
    cases expr t <;> rfl
  | _ => rfl

theorem declarationParts_eq_ok_iff {first value : Option Initializer} :
    declarationParts id expr former first cs = .ok (name, value) ↔
      nameTrees former ++ payloads .name cs = nameTrees name ∧
      ∃ values,
        List.Forall₂ (fun c i => Initializer.ofChild expr c = .ok i) (without [.name] cs) values ∧
        first.toList ++ values = value.toList := by
  induction cs generalizing former first with
  | nil =>
    have hvalue : first.toList = value.toList ↔ first = value := by
      cases first <;> cases value <;> simp
    simp [declarationParts, hvalue]
  | cons c cs ih =>
    obtain ⟨tag, t⟩ := c
    by_cases htag : tag = .name
    · subst htag
      rw [payloads_cons_self, without_cons_of_mem (by simp)]
      simp only [declarationParts, bind_eq_ok_iff, ih, exists_onlyName_iff, id]
    · rw [declarationParts_cons htag, payloads_cons_of_ne htag,
        without_cons_of_notMem (by simpa using htag)]
      simp only [bind_eq_ok_iff, ih]
      constructor
      · rintro ⟨i, hi, next, hnext, hname, values, hvalues, h⟩
        exact ⟨hname, i :: values, .cons hi hvalues, exists_onlyValue_iff.mp ⟨next, hnext, h⟩⟩
      · rintro ⟨hname, values, hvalues, h⟩
        cases hvalues with
        | @cons _ i _ values hi hvalues =>
          obtain ⟨next, hnext, h⟩ := exists_onlyValue_iff.mpr h
          exact ⟨i, hi, next, hnext, hname, values, hvalues, h⟩

end Sorters

/-! ## One step of reading -/

/-- The tag under which a literal with this value stands. -/
def Value.tag : Value → Tag
  | number _ => .number
  | string _ => .string
  | boolean _ => .boolean

theorem scalarOf_eq_ok_iff {tag : Tag} {t : Tree} {v : Value} :
    scalarOf tag t = .ok v ↔
      t = .scalar v ∧ (tag = v.tag ∨ tag = .value ∨ tag = .parameter) := by
  cases t with
  | scalar w =>
    cases tag <;> cases w <;> simp [scalarOf, Value.tag] <;> rintro rfl <;> simp
  | null | list items | object entries => simp [scalarOf]

theorem Initializer.ofChild_eq_ok_iff {c : Tag × Tree} {i : Initializer} :
    ofChild Expr.ofTree c = .ok i ↔
      (∃ v, c = (.value, .scalar v) ∧ i = literal v) ∨
      (∃ t e, c = (.expression, t) ∧ Expr.ofTree t = .ok e ∧ i = expression e) := by
  obtain ⟨tag, t⟩ := c
  cases tag with
  | value => simp [ofChild, map_eq_ok_iff, scalarOf_eq_ok_iff, eq_comm (b := i)]
  | expression => simp [ofChild, map_eq_ok_iff, eq_comm (b := i)]
  | _ => simp [ofChild]

namespace Expr

/-- The tags that have a meaning in an expression. -/
def tags : List Tag :=
  [.expression, .number, .string, .boolean, .parameter, .variableAccess, .functionCall,
    .builtInFunction]

/-- How an expression is read from a tree, one step deep. -/
inductive ReadFrom (t : Tree) : Expr → Prop
  | malformed {cs : List (Tag × Tree)} (ht : t.Clean cs) (hcount : cs.length ≠ 1) :
      ReadFrom t (.malformed cs.length)
  | nested {c : Tree} {e : Expr} (ht : t.Clean [(.expression, c)]) (he : ofTree c = .ok e) :
      ReadFrom t e
  | literal {v : Value} (ht : t.Clean [(v.tag, .scalar v)]) : ReadFrom t (.literal v)
  | parameter {v : Value} (ht : t.Clean [(.parameter, .scalar v)]) : ReadFrom t (.parameter v)
  | access {c : Tree} {cs : List (Tag × Tree)} {name : Option Name}
      (ht : t.Clean [(.variableAccess, c)]) (hc : c.Clean cs) (htags : ∀ d ∈ cs, d.1 = .name)
      (hname : payloads .name cs = nameTrees name) : ReadFrom t (.access name)
  | call {c : Tree} {cs : List (Tag × Tree)} {name : Option Name} {es : List Expr}
      (ht : t.Clean [(.functionCall, c)]) (hc : c.Clean cs)
      (htags : ∀ d ∈ cs, d.1 = .name ∨ d.1 = .expression)
      (hname : payloads .name cs = nameTrees name)
      (hes : List.Forall₂ (fun d e => ofTree d = .ok e) (payloads .expression cs) es) :
      ReadFrom t (.call name es)
  | builtIn {c : Tree} {cs : List (Tag × Tree)} {es : List Expr}
      (ht : t.Clean [(.builtInFunction, c)]) (hc : c.Clean cs)
      (htags : ∀ d ∈ cs, d.1.isOperator = true ∨ d.1 = .expression)
      (hes : List.Forall₂ (fun d e => ofTree d = .ok e) (payloads .expression cs) es) :
      ReadFrom t (.builtIn (cs.filterMap fun d => d.1.operator?) es)
  | invalid {tag : Tag} {c : Tree} (ht : t.Clean [(tag, c)]) (htag : tag ∉ tags) :
      ReadFrom t (.invalid tag)

theorem ofChildren_of_length_ne_one {cs : List (Tag × Tree)} (h : cs.length ≠ 1) :
    ofChildren cs = .ok (malformed cs.length) := by
  match cs with
  | [] => rfl
  | [_] => exact absurd rfl h
  | _ :: _ :: _ => simp [ofChildren]

theorem ofChildren_of_notMem {tag : Tag} {c : Tree} (htag : tag ∉ tags) :
    ofChildren [(tag, c)] = .ok (invalid tag) := by
  cases tag <;> first | rfl | exact absurd (by decide) htag

theorem readFrom_of_ofChildren {t : Tree} {cs : List (Tag × Tree)} {e : Expr} (ht : t.Clean cs)
    (h : ofChildren cs = .ok e) : ReadFrom t e := by
  by_cases hcount : cs.length = 1
  · obtain ⟨⟨tag, c⟩, rfl⟩ := List.length_eq_one_iff.mp hcount
    cases tag with
    | expression => exact .nested ht h
    | number | string | boolean =>
      obtain ⟨v, hv, rfl⟩ := map_eq_ok_iff.mp h
      obtain ⟨rfl, htag | htag | htag⟩ := scalarOf_eq_ok_iff.mp hv
      · exact .literal (htag ▸ ht)
      · cases htag
      · cases htag
    | parameter =>
      obtain ⟨v, hv, rfl⟩ := map_eq_ok_iff.mp h
      obtain ⟨rfl, -⟩ := scalarOf_eq_ok_iff.mp hv
      exact .parameter ht
    | variableAccess =>
      obtain ⟨cs, name, hc, hparts, h⟩ := Tree.sorted_bind_eq_ok_iff.mp h
      cases h
      obtain ⟨hname, htags⟩ := accessParts_eq_ok_iff.mp hparts
      exact .access ht hc htags hname
    | functionCall =>
      obtain ⟨cs, ⟨name, es⟩, hc, hparts, h⟩ := Tree.sorted_bind_eq_ok_iff.mp h
      cases h
      obtain ⟨hname, htags, hes⟩ := callParts_eq_ok_iff.mp hparts
      exact .call ht hc htags hname hes
    | builtInFunction =>
      obtain ⟨cs, ⟨operators, es⟩, hc, hparts, h⟩ := Tree.sorted_bind_eq_ok_iff.mp h
      cases h
      obtain ⟨htags, rfl, hes⟩ := builtInParts_eq_ok_iff.mp hparts
      exact .builtIn ht hc htags hes
    | _ =>
      cases h
      exact .invalid ht (by decide)
  · rw [ofChildren_of_length_ne_one hcount] at h
    cases h
    exact .malformed ht hcount

theorem ofTree_eq_ok_iff {t : Tree} {e : Expr} : ofTree t = .ok e ↔ ReadFrom t e := by
  rw [ofTree_eq, Tree.children_bind_eq_ok_iff]
  constructor
  · rintro ⟨cs, ht, h⟩
    exact readFrom_of_ofChildren ht h
  · intro h
    cases h with
    | malformed ht hcount => exact ⟨_, ht, ofChildren_of_length_ne_one hcount⟩
    | nested ht he => exact ⟨_, ht, he⟩
    | @literal v ht =>
      refine ⟨_, ht, ?_⟩
      cases v <;> rfl
    | parameter ht => exact ⟨_, ht, rfl⟩
    | access ht hc htags hname =>
      refine ⟨_, ht, Tree.sorted_bind_eq_ok_iff.mpr ⟨_, _, hc, ?_, rfl⟩⟩
      exact accessParts_eq_ok_iff.mpr ⟨hname, htags⟩
    | call ht hc htags hname hes =>
      refine ⟨_, ht, Tree.sorted_bind_eq_ok_iff.mpr ⟨_, (_, _), hc, ?_, rfl⟩⟩
      exact callParts_eq_ok_iff.mpr ⟨hname, htags, hes⟩
    | builtIn ht hc htags hes =>
      refine ⟨_, ht, Tree.sorted_bind_eq_ok_iff.mpr ⟨_, (_, _), hc, ?_, rfl⟩⟩
      exact builtInParts_eq_ok_iff.mpr ⟨htags, rfl, hes⟩
    | invalid ht htag => exact ⟨_, ht, ofChildren_of_notMem htag⟩

end Expr

namespace Stmt

/-- The tags that have a meaning as a statement. -/
def tags : List Tag :=
  [.statement, .functionDefinition, .conditional, .returns, .variableDeclaration, .expression]

/-- How the statement under a tag is read from a tree, one step deep. -/
inductive ReadFrom : Tag → Tree → Stmt → Prop
  | malformed {t : Tree} {cs : List (Tag × Tree)} (ht : t.Clean cs) (hcount : cs.length ≠ 1) :
      ReadFrom .statement t (.malformed cs.length)
  | wrapped {t c : Tree} {tag : Tag} {s : Stmt} (ht : t.Clean [(tag, c)])
      (hs : ofTree tag c = .ok s) : ReadFrom .statement t s
  | functionDefinition {t : Tree} {cs : List (Tag × Tree)} {name : Option Name} {xs : List Name}
      {body : List Stmt} (ht : t.Clean cs) (hname : payloads .name cs = nameTrees name)
      (hparameters : payloads .parameter cs = xs.map Tree.string)
      (hbody : List.Forall₂ (fun d s => ofTree d.1 d.2 = .ok s)
        (without [.name, .parameter] cs) body) :
      ReadFrom .functionDefinition t (.functionDefinition name xs body)
  | conditional {t : Tree} {cs : List (Tag × Tree)} {conditions : List Expr} {body : List Stmt}
      (ht : t.Clean cs)
      (hconditions : List.Forall₂ (fun d e => Expr.ofTree d = .ok e) (payloads .expression cs)
        conditions)
      (hbody : List.Forall₂ (fun d s => ofTree d.1 d.2 = .ok s) (without [.expression] cs) body) :
      ReadFrom .conditional t (.conditional conditions body)
  | returns {t : Tree} {e : Expr} (he : Expr.ofTree t = .ok e) :
      ReadFrom .returns t (.returns e)
  | declaration {t : Tree} {cs : List (Tag × Tree)} {name : Option Name}
      {value : Option Initializer} (ht : t.Clean cs)
      (hname : payloads .name cs = nameTrees name)
      (hvalue : List.Forall₂ (fun d i => Initializer.ofChild Expr.ofTree d = .ok i)
        (without [.name] cs) value.toList) :
      ReadFrom .variableDeclaration t (.declaration name value)
  | expression {t : Tree} {e : Expr} (he : Expr.ofTree t = .ok e) :
      ReadFrom .expression t (.expression e)
  | invalid {tag : Tag} {t : Tree} (htag : tag ∉ tags) : ReadFrom tag t (.invalid tag)

theorem ofTree_wrapped {t c : Tree} {tag : Tag} (ht : t.Clean [(tag, c)]) :
    ofTree .statement t = ofTree tag c := by
  rw [ofTree_statement, Tree.children_eq_ok_iff.mpr ht]
  rfl

theorem ofTree_of_length_ne_one {t : Tree} {cs : List (Tag × Tree)} (ht : t.Clean cs)
    (h : cs.length ≠ 1) : ofTree .statement t = .ok (malformed cs.length) := by
  rw [ofTree_statement, Tree.children_eq_ok_iff.mpr ht]
  match cs with
  | [] => rfl
  | [_] => exact absurd rfl h
  | _ :: _ :: _ => rfl

theorem ofTree_of_notMem {tag : Tag} {t : Tree} (htag : tag ∉ tags) :
    ofTree tag t = .ok (invalid tag) := by
  rw [ofTree] <;> rintro rfl <;> exact htag (by decide)

theorem ofTree_eq_ok_iff {tag : Tag} {t : Tree} {s : Stmt} :
    ofTree tag t = .ok s ↔ ReadFrom tag t s := by
  constructor
  · intro h
    cases tag with
    | statement =>
      obtain ⟨cs, ht, -⟩ := Tree.children_bind_eq_ok_iff.mp (ofTree_statement t ▸ h)
      by_cases hcount : cs.length = 1
      · obtain ⟨⟨tag, c⟩, rfl⟩ := List.length_eq_one_iff.mp hcount
        exact .wrapped ht ((ofTree_wrapped ht).symm.trans h)
      · rw [ofTree_of_length_ne_one ht hcount] at h
        cases h
        exact .malformed ht hcount
    | functionDefinition =>
      rw [ofTree_functionDefinition] at h
      obtain ⟨cs, ⟨name, xs, body⟩, ht, hparts, h⟩ := Tree.sorted_bind_eq_ok_iff.mp h
      cases h
      obtain ⟨hname, hparameters, hbody⟩ := definitionParts_eq_ok_iff.mp hparts
      exact .functionDefinition ht hname hparameters hbody
    | conditional =>
      rw [ofTree_conditional] at h
      obtain ⟨cs, ⟨conditions, body⟩, ht, hparts, h⟩ := Tree.sorted_bind_eq_ok_iff.mp h
      cases h
      obtain ⟨hconditions, hbody⟩ := conditionalParts_eq_ok_iff.mp hparts
      exact .conditional ht hconditions hbody
    | returns =>
      rw [ofTree, map_eq_ok_iff] at h
      obtain ⟨e, he, rfl⟩ := h
      exact .returns he
    | variableDeclaration =>
      rw [ofTree] at h
      obtain ⟨cs, ⟨name, value⟩, ht, hparts, h⟩ := Tree.sorted_bind_eq_ok_iff.mp h
      cases h
      obtain ⟨hname, values, hvalues, h⟩ := declarationParts_eq_ok_iff.mp hparts
      exact .declaration ht hname (h ▸ hvalues)
    | expression =>
      rw [ofTree, map_eq_ok_iff] at h
      obtain ⟨e, he, rfl⟩ := h
      exact .expression he
    | _ =>
      rw [ofTree_of_notMem (by decide)] at h
      cases h
      exact .invalid (by decide)
  · intro h
    cases h with
    | malformed ht hcount => exact ofTree_of_length_ne_one ht hcount
    | wrapped ht hs => exact (ofTree_wrapped ht).trans hs
    | functionDefinition ht hname hparameters hbody =>
      rw [ofTree_functionDefinition]
      refine Tree.sorted_bind_eq_ok_iff.mpr ⟨_, (_, _, _), ht, ?_, rfl⟩
      exact definitionParts_eq_ok_iff.mpr ⟨hname, hparameters, hbody⟩
    | conditional ht hconditions hbody =>
      rw [ofTree_conditional]
      refine Tree.sorted_bind_eq_ok_iff.mpr ⟨_, (_, _), ht, ?_, rfl⟩
      exact conditionalParts_eq_ok_iff.mpr ⟨hconditions, hbody⟩
    | returns he =>
      rw [ofTree, he]
      rfl
    | declaration ht hname hvalue =>
      rw [ofTree]
      refine Tree.sorted_bind_eq_ok_iff.mpr ⟨_, (_, _), ht, ?_, rfl⟩
      exact declarationParts_eq_ok_iff.mpr ⟨hname, _, hvalue, rfl⟩
    | expression he =>
      rw [ofTree, he]
      rfl
    | invalid htag => exact ofTree_of_notMem htag

end Stmt

namespace Item

/-- The tags that have a meaning at the top of a program. -/
def tags : List Tag :=
  [.functionDefinition, .returns, .conditional]

theorem tags_subset : tags ⊆ Stmt.tags := by
  decide

/-- How the item under a tag is read from a tree: as the statement that stands there, if it may
    stand at the top. -/
inductive ReadFrom : Tag → Tree → Item → Prop
  | functionDefinition {t : Tree} {name : Option Name} {xs : List Name} {body : List Stmt}
      (hs : Stmt.ofTree .functionDefinition t = .ok (.functionDefinition name xs body)) :
      ReadFrom .functionDefinition t (.functionDefinition name xs body)
  | conditional {t : Tree} {conditions : List Expr} {body : List Stmt}
      (hs : Stmt.ofTree .conditional t = .ok (.conditional conditions body)) :
      ReadFrom .conditional t (.conditional conditions body)
  | returns {t : Tree} {e : Expr} (hs : Stmt.ofTree .returns t = .ok (.returns e)) :
      ReadFrom .returns t (.returns e)
  | invalid {tag : Tag} {t : Tree} (htag : tag ∉ tags) : ReadFrom tag t (.invalid tag)

theorem ofTree_of_notMem {tag : Tag} {t : Tree} (htag : tag ∉ tags) :
    ofTree tag t = .ok (invalid tag) := by
  cases tag <;> first | rfl | exact absurd (by decide) htag

theorem ofTree_eq_ok_iff {tag : Tag} {t : Tree} {i : Item} :
    ofTree tag t = .ok i ↔ ReadFrom tag t i := by
  constructor
  · intro h
    cases tag with
    | functionDefinition =>
      rw [ofTree] at h
      obtain ⟨cs, parts, ht, hparts, h⟩ := Tree.sorted_bind_eq_ok_iff.mp h
      cases h
      refine .functionDefinition ?_
      rw [Stmt.ofTree_functionDefinition]
      exact Tree.sorted_bind_eq_ok_iff.mpr ⟨cs, parts, ht, hparts, rfl⟩
    | conditional =>
      rw [ofTree] at h
      obtain ⟨cs, parts, ht, hparts, h⟩ := Tree.sorted_bind_eq_ok_iff.mp h
      cases h
      refine .conditional ?_
      rw [Stmt.ofTree_conditional]
      exact Tree.sorted_bind_eq_ok_iff.mpr ⟨cs, parts, ht, hparts, rfl⟩
    | returns =>
      obtain ⟨e, he, rfl⟩ := map_eq_ok_iff.mp h
      exact .returns (Stmt.ofTree_eq_ok_iff.mpr (.returns he))
    | _ =>
      cases h
      exact .invalid (by decide)
  · intro h
    cases h with
    | functionDefinition hs =>
      rw [Stmt.ofTree_functionDefinition] at hs
      obtain ⟨cs, parts, ht, hparts, h⟩ := Tree.sorted_bind_eq_ok_iff.mp hs
      cases h
      exact Tree.sorted_bind_eq_ok_iff.mpr ⟨cs, parts, ht, hparts, rfl⟩
    | conditional hs =>
      rw [Stmt.ofTree_conditional] at hs
      obtain ⟨cs, parts, ht, hparts, h⟩ := Tree.sorted_bind_eq_ok_iff.mp hs
      cases h
      exact Tree.sorted_bind_eq_ok_iff.mpr ⟨cs, parts, ht, hparts, rfl⟩
    | returns hs =>
      cases Stmt.ofTree_eq_ok_iff.mp hs with
      | returns he => exact map_eq_ok_iff.mpr ⟨_, he, rfl⟩
    | invalid htag => exact ofTree_of_notMem htag

end Item

theorem itemsOf_eq_ok_iff {cs : List (Tag × Tree)} {items : List Item} :
    itemsOf cs = .ok items ↔ List.Forall₂ (fun c i => Item.ofTree c.1 c.2 = .ok i) cs items := by
  induction cs generalizing items with
  | nil => simp [itemsOf, eq_comm (b := items)]
  | cons c cs ih =>
    simp only [itemsOf, bind_eq_ok_iff]
    constructor
    · rintro ⟨item, hitem, items, hitems, h⟩
      cases h
      exact .cons hitem (ih.mp hitems)
    · intro h
      cases h with
      | cons hitem hitems => exact ⟨_, hitem, _, ih.mpr hitems, rfl⟩

/-- A document is a program if its root object has a program as its one entry. -/
theorem Program.ofTree_eq_ok_iff {t : Tree} {p : Program} :
    ofTree t = .ok p ↔ ∃ payload cs, t = .object [(Tag.program.text, payload)] ∧
      payload.Clean cs ∧ List.Forall₂ (fun c i => Item.ofTree c.1 c.2 = .ok i) cs p.items := by
  constructor
  · intro h
    unfold ofTree at h
    split at h
    · next key payload =>
      split at h
      · next hkey =>
        subst hkey
        obtain ⟨cs, items, hpayload, hitems, h⟩ := Tree.sorted_bind_eq_ok_iff.mp h
        cases h
        exact ⟨payload, cs, rfl, hpayload, itemsOf_eq_ok_iff.mp hitems⟩
      · cases h
    · cases h
    · cases h
  · rintro ⟨payload, cs, rfl, hpayload, hitems⟩
    rw [ofTree, if_pos rfl]
    refine Tree.sorted_bind_eq_ok_iff.mpr ⟨cs, p.items, hpayload, ?_, rfl⟩
    exact itemsOf_eq_ok_iff.mpr hitems

end TreeWalk
