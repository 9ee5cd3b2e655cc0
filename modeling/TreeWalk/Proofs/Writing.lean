-- SUMMARY: Which programs some document says, and a document for each of them.
import TreeWalk.Proofs.Grammar

/-! # Writing programs down

`Writable` says which programs can be read off a tree at all: those in which nothing is called
malformed or invalid that the reader understands. Every other shape can be written, however
little evaluation can do with it.

`Program.toTree` writes the document. Two things need care. The statements of a body stand
under the `statement` wrapper, because under their own tags some of them would be taken for a
name, a parameter or a condition. And an operator has a payload, because an operator with an
empty list would be refused.
-/

namespace TreeWalk

/-! ## Writable programs -/

inductive Expr.Writable : Expr → Prop
  | literal (v : Value) : Writable (.literal v)
  | parameter (v : Value) : Writable (.parameter v)
  | access (name : Option Name) : Writable (.access name)
  | call (name : Option Name) {arguments : List Expr} (harguments : ∀ e ∈ arguments, Writable e) :
      Writable (.call name arguments)
  | builtIn (operators : List Operator) {operands : List Expr}
      (hoperands : ∀ e ∈ operands, Writable e) : Writable (.builtIn operators operands)
  | malformed {count : Nat} (hcount : count ≠ 1) : Writable (.malformed count)
  | invalid {tag : Tag} (htag : tag ∉ tags) : Writable (.invalid tag)

inductive Initializer.Writable : Initializer → Prop
  | literal (v : Value) : Writable (.literal v)
  | expression {e : Expr} (he : e.Writable) : Writable (.expression e)

inductive Stmt.Writable : Stmt → Prop
  | functionDefinition (name : Option Name) (parameters : List Name) {body : List Stmt}
      (hbody : ∀ s ∈ body, Writable s) : Writable (.functionDefinition name parameters body)
  | conditional {conditions : List Expr} {body : List Stmt}
      (hconditions : ∀ e ∈ conditions, e.Writable) (hbody : ∀ s ∈ body, Writable s) :
      Writable (.conditional conditions body)
  | returns {e : Expr} (he : e.Writable) : Writable (.returns e)
  | declaration (name : Option Name) {value : Option Initializer}
      (hvalue : ∀ i ∈ value, i.Writable) : Writable (.declaration name value)
  | expression {e : Expr} (he : e.Writable) : Writable (.expression e)
  | malformed {count : Nat} (hcount : count ≠ 1) : Writable (.malformed count)
  | invalid {tag : Tag} (htag : tag ∉ tags) : Writable (.invalid tag)

inductive Item.Writable : Item → Prop
  | functionDefinition {name : Option Name} {parameters : List Name} {body : List Stmt}
      (hs : (Stmt.functionDefinition name parameters body).Writable) :
      Writable (.functionDefinition name parameters body)
  | conditional {conditions : List Expr} {body : List Stmt}
      (hs : (Stmt.conditional conditions body).Writable) : Writable (.conditional conditions body)
  | returns {e : Expr} (he : e.Writable) : Writable (.returns e)
  | invalid {tag : Tag} (htag : tag ∉ tags) : Writable (.invalid tag)

def Program.Writable (p : Program) : Prop :=
  ∀ i ∈ p.items, i.Writable

/-! ## What is read is writable -/

theorem Expr.writable_of_ofTree {t : Tree} {e : Expr} (h : ofTree t = .ok e) : e.Writable := by
  cases ofTree_eq_ok_iff.mp h with
  | malformed ht hcount => exact .malformed hcount
  | nested ht he =>
    have := ht.sizeOf_only
    exact writable_of_ofTree he
  | literal ht => exact .literal _
  | parameter ht => exact .parameter _
  | access ht hc htags hname => exact .access _
  | call ht hc htags hname hes =>
    refine .call _ fun e he => ?_
    obtain ⟨d, hd, he⟩ := exists_mem_of_forall₂ hes he
    have := Nat.lt_trans (hc.sizeOf_lt (mem_payloads.mp hd)) ht.sizeOf_only
    exact writable_of_ofTree he
  | builtIn ht hc htags hes =>
    refine .builtIn _ fun e he => ?_
    obtain ⟨d, hd, he⟩ := exists_mem_of_forall₂ hes he
    have := Nat.lt_trans (hc.sizeOf_lt (mem_payloads.mp hd)) ht.sizeOf_only
    exact writable_of_ofTree he
  | invalid ht htag => exact .invalid htag
termination_by sizeOf t

theorem Initializer.writable_of_ofChild {d : Tag × Tree} {i : Initializer}
    (h : ofChild Expr.ofTree d = .ok i) : i.Writable := by
  obtain ⟨v, -, rfl⟩ | ⟨t, e, -, he, rfl⟩ := ofChild_eq_ok_iff.mp h
  · exact .literal v
  · exact .expression (Expr.writable_of_ofTree he)

theorem Stmt.writable_of_ofTree {tag : Tag} {t : Tree} {s : Stmt} (h : ofTree tag t = .ok s) :
    s.Writable := by
  cases ofTree_eq_ok_iff.mp h with
  | malformed ht hcount => exact .malformed hcount
  | wrapped ht hs =>
    have := ht.sizeOf_only
    exact writable_of_ofTree hs
  | functionDefinition ht hname hparameters hbody =>
    refine .functionDefinition _ _ fun s hs => ?_
    obtain ⟨d, hd, hs⟩ := exists_mem_of_forall₂ hbody hs
    have := ht.sizeOf_lt (mem_without.mp hd).1
    exact writable_of_ofTree hs
  | conditional ht hconditions hbody =>
    refine .conditional (fun e he => ?_) fun s hs => ?_
    · obtain ⟨d, -, he⟩ := exists_mem_of_forall₂ hconditions he
      exact Expr.writable_of_ofTree he
    · obtain ⟨d, hd, hs⟩ := exists_mem_of_forall₂ hbody hs
      have := ht.sizeOf_lt (mem_without.mp hd).1
      exact writable_of_ofTree hs
  | returns he => exact .returns (Expr.writable_of_ofTree he)
  | declaration ht hname hvalue =>
    refine .declaration _ fun i hi => ?_
    obtain ⟨d, -, hi⟩ := exists_mem_of_forall₂ hvalue (Option.mem_toList.mpr hi)
    exact Initializer.writable_of_ofChild hi
  | expression he => exact .expression (Expr.writable_of_ofTree he)
  | invalid htag => exact .invalid htag
termination_by sizeOf t

theorem Item.writable_of_ofTree {tag : Tag} {t : Tree} {i : Item} (h : ofTree tag t = .ok i) :
    i.Writable := by
  cases ofTree_eq_ok_iff.mp h with
  | functionDefinition hs => exact .functionDefinition (Stmt.writable_of_ofTree hs)
  | conditional hs => exact .conditional (Stmt.writable_of_ofTree hs)
  | returns hs =>
    cases Stmt.writable_of_ofTree hs with
    | returns he => exact .returns he
  | invalid htag => exact .invalid htag

theorem Program.writable_of_ofTree {t : Tree} {p : Program} (h : ofTree t = .ok p) :
    p.Writable := by
  obtain ⟨_, cs, -, -, hitems⟩ := ofTree_eq_ok_iff.mp h
  intro i hi
  obtain ⟨d, -, hi⟩ := exists_mem_of_forall₂ hitems hi
  exact Item.writable_of_ofTree hi

/-! ## Writing -/

/-- The object with these children. -/
def Tree.node (cs : List (Tag × Tree)) : Tree :=
  .object (cs.map fun c => (c.1.text, c.2))

def Operator.tag : Operator → Tag
  | equality => .equality
  | plus => .plus
  | minus => .minus

/-- Trees that all stand under one tag. -/
def under (tag : Tag) (ts : List Tree) : List (Tag × Tree) :=
  ts.map (Prod.mk tag)

/-- Children for a node that has the wrong number of them. -/
def padding (count : Nat) : List (Tag × Tree) :=
  List.replicate count (.number, .null)

/-- Operators as children. A payload of `null` is the least that keeps them. -/
def operatorChildren (operators : List Operator) : List (Tag × Tree) :=
  operators.map fun o => (o.tag, .null)

mutual

def Expr.toTree : Expr → Tree
  | .literal v => .node [(v.tag, .scalar v)]
  | .parameter v => .node [(.parameter, .scalar v)]
  | .access name => .node [(.variableAccess, .node (under .name (nameTrees name)))]
  | .call name arguments =>
      .node [(.functionCall,
        .node (under .name (nameTrees name) ++ under .expression (toTrees arguments)))]
  | .builtIn operators operands =>
      .node [(.builtInFunction,
        .node (operatorChildren operators ++ under .expression (toTrees operands)))]
  | .malformed count => .node (padding count)
  | .invalid tag => .node [(tag, .null)]

def Expr.toTrees : List Expr → List Tree
  | [] => []
  | e :: es => e.toTree :: toTrees es

end

def Initializer.toChild : Initializer → Tag × Tree
  | literal v => (.value, .scalar v)
  | expression e => (.expression, e.toTree)

mutual

/-- The tag of a statement, and what stands under it. -/
def Stmt.toChild : Stmt → Tag × Tree
  | .functionDefinition name parameters body =>
      (.functionDefinition,
        .node (under .name (nameTrees name) ++ under .parameter (parameters.map Tree.string) ++
          under .statement (toTrees body)))
  | .conditional conditions body =>
      (.conditional,
        .node (under .expression (Expr.toTrees conditions) ++ under .statement (toTrees body)))
  | .returns e => (.returns, e.toTree)
  | .declaration name value =>
      (.variableDeclaration,
        .node (under .name (nameTrees name) ++ value.toList.map Initializer.toChild))
  | .expression e => (.expression, e.toTree)
  | .malformed count => (.statement, .node (padding count))
  | .invalid tag => (tag, .null)

/-- What stands under the wrappers of these statements. -/
def Stmt.toTrees : List Stmt → List Tree
  | [] => []
  | s :: rest => .node [s.toChild] :: toTrees rest

end

def Item.toChild : Item → Tag × Tree
  | functionDefinition name parameters body =>
      (Stmt.functionDefinition name parameters body).toChild
  | conditional conditions body => (Stmt.conditional conditions body).toChild
  | returns e => (Stmt.returns e).toChild
  | invalid tag => (tag, .null)

def Program.toTree (p : Program) : Tree :=
  .node [(.program, .node (p.items.map Item.toChild))]

/-! ### The children of what is written -/

namespace Tree

def isList : Tree → Bool
  | list _ => true
  | _ => false

/-- Children that are no lists are the children of the object made of them. -/
theorem clean_node {cs : List (Tag × Tree)} (h : ∀ c ∈ cs, c.2.isList = false) :
    (node cs).Clean cs := by
  refine .object ?_
  induction cs with
  | nil => exact .nil
  | cons c cs ih =>
    obtain ⟨tag, t⟩ := c
    have ht : t.isList = false := h _ List.mem_cons_self
    have hentries := ih fun c hc => h c (List.mem_cons_of_mem _ hc)
    cases t with
    | list items => cases ht
    | null | scalar v | object entries => exact .cons (fun _ => nofun) hentries

theorem clean_node_singleton {tag : Tag} {t : Tree} (h : t.isList = false) :
    (node [(tag, t)]).Clean [(tag, t)] :=
  clean_node (List.forall_mem_singleton.mpr h)

end Tree

section

variable {tag other : Tag} {tags : List Tag} {ts : List Tree} {cs ds : List (Tag × Tree)}

theorem forall_mem_under {P : Tag × Tree → Prop} (h : ∀ t ∈ ts, P (tag, t)) :
    ∀ c ∈ under tag ts, P c :=
  List.forall_mem_map.mpr h

@[simp] theorem payloads_append : payloads tag (cs ++ ds) = payloads tag cs ++ payloads tag ds := by
  simp [payloads]

@[simp] theorem payloads_under :
    payloads tag (under other ts) = if other = tag then ts else [] := by
  split <;> simp [payloads, under, List.filter_map, Function.comp_def, *]

@[simp] theorem without_append : without tags (cs ++ ds) = without tags cs ++ without tags ds := by
  simp [without]

@[simp] theorem without_under :
    without tags (under tag ts) = if tag ∈ tags then [] else under tag ts := by
  split <;> simp [without, under, List.filter_map, Function.comp_def, *]

end

@[simp] theorem Operator.operator?_tag (o : Operator) : o.tag.operator? = some o := by
  cases o <;> rfl

@[simp] theorem Operator.isOperator_tag (o : Operator) : o.tag.isOperator = true := by
  cases o <;> rfl

theorem Operator.tag_ne_expression (o : Operator) : o.tag ≠ .expression := by
  cases o <;> nofun

@[simp] theorem payloads_operatorChildren (operators : List Operator) :
    payloads .expression (operatorChildren operators) = [] := by
  simp [payloads, operatorChildren, Operator.tag_ne_expression]

/-- The operators are read off the tags, whatever the operands are. -/
theorem filterMap_operator? (operators : List Operator) (ts : List Tree) :
    (operatorChildren operators ++ under .expression ts).filterMap (fun c => c.1.operator?) =
      operators := by
  have hts : (under .expression ts).filterMap (fun c => c.1.operator?) = [] := by
    simp [under, Tag.operator?]
  rw [List.filterMap_append, hts, List.append_nil, operatorChildren, List.filterMap_map]
  simp

theorem clean_padding (count : Nat) : (Tree.node (padding count)).Clean (padding count) :=
  Tree.clean_node fun _ hc => by rw [List.eq_of_mem_replicate hc]; rfl

@[simp] theorem length_padding (count : Nat) : (padding count).length = count :=
  List.length_replicate

theorem isList_nameTrees (name : Option Name) : ∀ t ∈ nameTrees name, t.isList = false :=
  List.forall_mem_map.mpr fun _ _ => rfl

namespace Expr

theorem toTrees_eq_map (es : List Expr) : toTrees es = es.map toTree := by
  induction es with
  | nil => rfl
  | cons e es ih => rw [toTrees, ih, List.map_cons]

@[simp] theorem isList_toTree (e : Expr) : e.toTree.isList = false := by
  cases e <;> rfl

theorem isList_toTrees (es : List Expr) : ∀ t ∈ toTrees es, t.isList = false := by
  rw [toTrees_eq_map]
  exact List.forall_mem_map.mpr fun e _ => e.isList_toTree

theorem forall₂_toTrees {es : List Expr} (h : ∀ e ∈ es, ofTree e.toTree = .ok e) :
    List.Forall₂ (fun d e => ofTree d = .ok e) (toTrees es) es := by
  rw [toTrees_eq_map, List.forall₂_map_left_iff]
  exact List.forall₂_same.mpr h

theorem Writable.ofTree_toTree {e : Expr} (h : e.Writable) : ofTree e.toTree = .ok e := by
  induction h with
  | literal v => exact ofTree_eq_ok_iff.mpr (.literal (Tree.clean_node_singleton rfl))
  | parameter v => exact ofTree_eq_ok_iff.mpr (.parameter (Tree.clean_node_singleton rfl))
  | access name =>
    refine ofTree_eq_ok_iff.mpr (.access (Tree.clean_node_singleton rfl) (Tree.clean_node ?_) ?_ ?_)
    · exact forall_mem_under (isList_nameTrees name)
    · exact forall_mem_under fun _ _ => rfl
    · simp
  | @call name arguments _ ih =>
    refine ofTree_eq_ok_iff.mpr
      (.call (Tree.clean_node_singleton rfl) (Tree.clean_node ?_) ?_ ?_ ?_)
    · exact List.forall_mem_append.mpr
        ⟨forall_mem_under (isList_nameTrees name), forall_mem_under (isList_toTrees arguments)⟩
    · exact List.forall_mem_append.mpr
        ⟨forall_mem_under fun _ _ => .inl rfl, forall_mem_under fun _ _ => .inr rfl⟩
    · simp
    · simpa using forall₂_toTrees ih
  | @builtIn operators operands _ ih =>
    have hread : ReadFrom (toTree (.builtIn operators operands))
        (.builtIn ((operatorChildren operators ++ under .expression (toTrees operands)).filterMap
          fun c => c.1.operator?) operands) := by
      refine .builtIn (Tree.clean_node_singleton rfl) (Tree.clean_node ?_) ?_ ?_
      · exact List.forall_mem_append.mpr
          ⟨List.forall_mem_map.mpr fun _ _ => rfl, forall_mem_under (isList_toTrees operands)⟩
      · exact List.forall_mem_append.mpr
          ⟨List.forall_mem_map.mpr fun o _ => .inl o.isOperator_tag,
            forall_mem_under fun _ _ => .inr rfl⟩
      · simpa using forall₂_toTrees ih
    rw [filterMap_operator?] at hread
    exact ofTree_eq_ok_iff.mpr hread
  | @malformed count hcount =>
    have hread := ReadFrom.malformed (clean_padding count) (by rwa [length_padding])
    rw [length_padding] at hread
    exact ofTree_eq_ok_iff.mpr hread
  | invalid htag =>
    exact ofTree_eq_ok_iff.mpr (.invalid (Tree.clean_node_singleton rfl) htag)

end Expr

theorem Initializer.Writable.ofChild_toChild {i : Initializer} (h : i.Writable) :
    ofChild Expr.ofTree i.toChild = .ok i := by
  cases h with
  | literal v => exact ofChild_eq_ok_iff.mpr (.inl ⟨v, rfl, rfl⟩)
  | expression he => exact ofChild_eq_ok_iff.mpr (.inr ⟨_, _, rfl, he.ofTree_toTree, rfl⟩)

theorem Initializer.isList_toChild (i : Initializer) : i.toChild.2.isList = false := by
  cases i with
  | literal v => rfl
  | expression e => exact e.isList_toTree

@[simp] theorem payloads_initializer (value : Option Initializer) :
    payloads .name (value.toList.map Initializer.toChild) = [] := by
  match value with
  | none | some (.literal _) | some (.expression _) => rfl

@[simp] theorem without_initializer (value : Option Initializer) :
    without [.name] (value.toList.map Initializer.toChild) =
      value.toList.map Initializer.toChild := by
  match value with
  | none | some (.literal _) | some (.expression _) => rfl

namespace Stmt

theorem toTrees_eq_map (body : List Stmt) : toTrees body = body.map fun s => .node [s.toChild] := by
  induction body with
  | nil => rfl
  | cons s rest ih => rw [toTrees, ih, List.map_cons]

theorem isList_toTrees (body : List Stmt) : ∀ t ∈ toTrees body, t.isList = false := by
  rw [toTrees_eq_map]
  exact List.forall_mem_map.mpr fun _ _ => rfl

theorem isList_toChild (s : Stmt) : s.toChild.2.isList = false := by
  cases s with
  | returns e | expression e => exact e.isList_toTree
  | _ => rfl

/-- The statements of a body are read behind their wrappers. -/
theorem forall₂_toTrees {body : List Stmt}
    (h : ∀ s ∈ body, ofTree s.toChild.1 s.toChild.2 = .ok s) :
    List.Forall₂ (fun d s => ofTree d.1 d.2 = .ok s) (under .statement (toTrees body)) body := by
  rw [under, toTrees_eq_map, List.map_map, List.forall₂_map_left_iff]
  refine List.forall₂_same.mpr fun s hs => ?_
  exact ofTree_eq_ok_iff.mpr (.wrapped (Tree.clean_node_singleton s.isList_toChild) (h s hs))

theorem Writable.ofTree_toChild {s : Stmt} (h : s.Writable) :
    ofTree s.toChild.1 s.toChild.2 = .ok s := by
  induction h with
  | @functionDefinition name parameters body _ ih =>
    refine ofTree_eq_ok_iff.mpr (.functionDefinition (Tree.clean_node ?_) ?_ ?_ ?_)
    · refine List.forall_mem_append.mpr ⟨List.forall_mem_append.mpr ⟨?_, ?_⟩, ?_⟩
      · exact forall_mem_under (isList_nameTrees name)
      · exact forall_mem_under (List.forall_mem_map.mpr fun _ _ => rfl)
      · exact forall_mem_under (isList_toTrees body)
    · simp
    · simp
    · simpa using forall₂_toTrees ih
  | @conditional conditions body hconditions _ ih =>
    refine ofTree_eq_ok_iff.mpr (.conditional (Tree.clean_node ?_) ?_ ?_)
    · exact List.forall_mem_append.mpr
        ⟨forall_mem_under (Expr.isList_toTrees conditions), forall_mem_under (isList_toTrees body)⟩
    · simpa using Expr.forall₂_toTrees fun e he => (hconditions e he).ofTree_toTree
    · simpa using forall₂_toTrees ih
  | returns he => exact ofTree_eq_ok_iff.mpr (.returns he.ofTree_toTree)
  | @declaration name value hvalue =>
    refine ofTree_eq_ok_iff.mpr (.declaration (Tree.clean_node ?_) ?_ ?_)
    · exact List.forall_mem_append.mpr ⟨forall_mem_under (isList_nameTrees name),
        List.forall_mem_map.mpr fun i _ => i.isList_toChild⟩
    · simp
    · simp only [without_append, without_under, List.mem_singleton, if_true, without_initializer,
        List.nil_append, List.forall₂_map_left_iff]
      refine List.forall₂_same.mpr fun i hi => ?_
      exact (hvalue i (Option.mem_toList.mp hi)).ofChild_toChild
  | expression he => exact ofTree_eq_ok_iff.mpr (.expression he.ofTree_toTree)
  | @malformed count hcount =>
    have hread := ReadFrom.malformed (clean_padding count) (by rwa [length_padding])
    rw [length_padding] at hread
    exact ofTree_eq_ok_iff.mpr hread
  | invalid htag => exact ofTree_eq_ok_iff.mpr (.invalid htag)

end Stmt

namespace Item

theorem isList_toChild (i : Item) : i.toChild.2.isList = false := by
  cases i with
  | invalid tag => rfl
  | _ => exact Stmt.isList_toChild _

theorem Writable.ofTree_toChild {i : Item} (h : i.Writable) :
    ofTree i.toChild.1 i.toChild.2 = .ok i := by
  cases h with
  | functionDefinition hs => exact ofTree_eq_ok_iff.mpr (.functionDefinition hs.ofTree_toChild)
  | conditional hs => exact ofTree_eq_ok_iff.mpr (.conditional hs.ofTree_toChild)
  | returns he => exact ofTree_eq_ok_iff.mpr (.returns (Stmt.Writable.returns he).ofTree_toChild)
  | invalid htag => exact ofTree_eq_ok_iff.mpr (.invalid htag)

end Item

theorem Program.Writable.ofTree_toTree {p : Program} (h : p.Writable) :
    ofTree p.toTree = .ok p := by
  refine ofTree_eq_ok_iff.mpr ⟨_, p.items.map Item.toChild, rfl, Tree.clean_node ?_, ?_⟩
  · exact List.forall_mem_map.mpr fun i _ => i.isList_toChild
  · exact List.forall₂_map_left_iff.mpr (List.forall₂_same.mpr fun i hi => (h i hi).ofTree_toChild)

/-- The programs that some document says are the writable ones. -/
theorem Program.exists_tree_iff_writable (p : Program) :
    (∃ t, ofTree t = .ok p) ↔ p.Writable :=
  ⟨fun ⟨_, h⟩ => writable_of_ofTree h, fun h => ⟨p.toTree, h.ofTree_toTree⟩⟩

end TreeWalk
