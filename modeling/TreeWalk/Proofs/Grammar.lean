-- SUMMARY: The grammar of documents, and that it is exactly what the reader takes.
import TreeWalk.Proofs.Reading

/-! # The grammar of documents

Which trees are documents, said without a reader and without programs. The grammar is lax on
purpose. A wrapper with the wrong number of children is fine, and so is a tag that has no
meaning where it stands, with whatever is under it: both are kept, and evaluation complains
about them if it ever gets there. But every object that is looked into must be clean, whatever
its entries are.

What a tag means depends on where it stands. An `expression` under a conditional is one of its
conditions, under a definition it is a statement of the body; that is why the rules for
statements also take the tag.
-/

namespace TreeWalk

namespace Tree

/-- At most one of these children is a name, and it is a string. -/
def OneName (cs : List (Tag × Tree)) : Prop :=
  (payloads .name cs).length ≤ 1 ∧ ∀ d ∈ payloads .name cs, ∃ x, d = string x

/-- What may stand under `expression`. -/
inductive IsExpression : Tree → Prop
  | counted {t : Tree} {cs : List (Tag × Tree)} (ht : t.Clean cs) (hcount : cs.length ≠ 1) :
      IsExpression t
  | nested {t c : Tree} (ht : t.Clean [(.expression, c)]) (hc : IsExpression c) : IsExpression t
  | number {t : Tree} {n : Number} (ht : t.Clean [(.number, .scalar (.number n))]) :
      IsExpression t
  | string {t : Tree} {s : String} (ht : t.Clean [(.string, .scalar (.string s))]) :
      IsExpression t
  | boolean {t : Tree} {b : Bool} (ht : t.Clean [(.boolean, .scalar (.boolean b))]) :
      IsExpression t
  | parameter {t : Tree} {v : Value} (ht : t.Clean [(.parameter, .scalar v)]) : IsExpression t
  | access {t c : Tree} {cs : List (Tag × Tree)} (ht : t.Clean [(.variableAccess, c)])
      (hc : c.Clean cs) (htags : ∀ d ∈ cs, d.1 = .name) (hname : OneName cs) : IsExpression t
  | call {t c : Tree} {cs : List (Tag × Tree)} (ht : t.Clean [(.functionCall, c)])
      (hc : c.Clean cs) (htags : ∀ d ∈ cs, d.1 = .name ∨ d.1 = .expression) (hname : OneName cs)
      (harguments : ∀ d ∈ payloads .expression cs, IsExpression d) : IsExpression t
  | builtIn {t c : Tree} {cs : List (Tag × Tree)} (ht : t.Clean [(.builtInFunction, c)])
      (hc : c.Clean cs) (htags : ∀ d ∈ cs, d.1.isOperator = true ∨ d.1 = .expression)
      (hoperands : ∀ d ∈ payloads .expression cs, IsExpression d) : IsExpression t
  | other {t c : Tree} {tag : Tag} (ht : t.Clean [(tag, c)]) (htag : tag ∉ Expr.tags) :
      IsExpression t

/-- What may stand under a tag in the place of a statement. -/
inductive IsStatement : Tag → Tree → Prop
  | counted {t : Tree} {cs : List (Tag × Tree)} (ht : t.Clean cs) (hcount : cs.length ≠ 1) :
      IsStatement .statement t
  | wrapped {t c : Tree} {tag : Tag} (ht : t.Clean [(tag, c)]) (hc : IsStatement tag c) :
      IsStatement .statement t
  | functionDefinition {t : Tree} {cs : List (Tag × Tree)} (ht : t.Clean cs)
      (hname : OneName cs) (hparameters : ∀ d ∈ payloads .parameter cs, ∃ x, d = string x)
      (hbody : ∀ d ∈ without [.name, .parameter] cs, IsStatement d.1 d.2) :
      IsStatement .functionDefinition t
  | conditional {t : Tree} {cs : List (Tag × Tree)} (ht : t.Clean cs)
      (hconditions : ∀ d ∈ payloads .expression cs, IsExpression d)
      (hbody : ∀ d ∈ without [.expression] cs, IsStatement d.1 d.2) :
      IsStatement .conditional t
  | returns {t : Tree} (ht : t.IsExpression) : IsStatement .returns t
  | declaration {t : Tree} {cs : List (Tag × Tree)} (ht : t.Clean cs)
      (htags : ∀ d ∈ cs, d.1 = .name ∨ d.1 = .value ∨ d.1 = .expression) (hname : OneName cs)
      (hcount : (without [.name] cs).length ≤ 1)
      (hliteral : ∀ d ∈ payloads .value cs, ∃ v, d = .scalar v)
      (hexpression : ∀ d ∈ payloads .expression cs, IsExpression d) :
      IsStatement .variableDeclaration t
  | expression {t : Tree} (ht : t.IsExpression) : IsStatement .expression t
  | other {t : Tree} {tag : Tag} (htag : tag ∉ Stmt.tags) : IsStatement tag t

/-- What may stand under `program`. Only three tags are looked under. -/
def IsProgram (t : Tree) : Prop :=
  ∃ cs, t.Clean cs ∧ ∀ d ∈ cs, d.1 ∈ Item.tags → IsStatement d.1 d.2

/-- A whole document: a program, under the one key at the root. -/
def IsDocument (t : Tree) : Prop :=
  ∃ payload, t = .object [(Tag.program.text, payload)] ∧ payload.IsProgram

end Tree

/-! ## What can be read -/

section

variable {α β : Type}

theorem exists_forall₂_iff {R : α → β → Prop} {as : List α} :
    (∃ bs, List.Forall₂ R as bs) ↔ ∀ a ∈ as, ∃ b, R a b := by
  induction as with
  | nil => simp
  | cons a as ih => simp [List.forall₂_cons_left_iff, ← ih]

theorem exists_eq_toList_iff {as : List α} :
    (∃ o : Option α, as = o.toList) ↔ as.length ≤ 1 := by
  match as with
  | [] => exact iff_of_true ⟨none, rfl⟩ (Nat.zero_le 1)
  | [a] => exact iff_of_true ⟨some a, rfl⟩ (Nat.le_refl 1)
  | a :: b :: as =>
    refine iff_of_false ?_ (by simp)
    rintro ⟨o, h⟩
    cases o <;> cases h

end

theorem exists_map_string_iff {ts : List Tree} :
    (∃ xs : List Name, ts = xs.map Tree.string) ↔ ∀ t ∈ ts, ∃ x, t = .string x := by
  rw [← exists_forall₂_iff]
  refine exists_congr fun xs => ?_
  rw [← List.forall₂_eq_eq_eq, List.forall₂_map_right_iff]

theorem exists_nameTrees_iff {cs : List (Tag × Tree)} :
    (∃ name, payloads .name cs = nameTrees name) ↔ Tree.OneName cs := by
  rw [Tree.OneName, ← exists_map_string_iff]
  constructor
  · rintro ⟨name, h⟩
    refine ⟨?_, name.toList, h⟩
    cases name <;> simp [h, nameTrees]
  · rintro ⟨hlength, xs, h⟩
    rw [h, List.length_map] at hlength
    obtain ⟨name, rfl⟩ := exists_eq_toList_iff.mpr hlength
    exact ⟨name, h⟩

namespace Tree

theorem isExpression_of_ofTree {t : Tree} {e : Expr} (h : Expr.ofTree t = .ok e) :
    t.IsExpression := by
  cases Expr.ofTree_eq_ok_iff.mp h with
  | malformed ht hcount => exact .counted ht hcount
  | nested ht he =>
    have := ht.sizeOf_only
    exact .nested ht (isExpression_of_ofTree he)
  | @literal v ht =>
    cases v with
    | number n => exact .number ht
    | string s => exact .string ht
    | boolean b => exact .boolean ht
  | parameter ht => exact .parameter ht
  | access ht hc htags hname => exact .access ht hc htags (exists_nameTrees_iff.mp ⟨_, hname⟩)
  | call ht hc htags hname hes =>
    refine .call ht hc htags (exists_nameTrees_iff.mp ⟨_, hname⟩) fun d hd => ?_
    obtain ⟨e, he⟩ := exists_forall₂_iff.mp ⟨_, hes⟩ d hd
    have := Nat.lt_trans (hc.sizeOf_lt (mem_payloads.mp hd)) ht.sizeOf_only
    exact isExpression_of_ofTree he
  | builtIn ht hc htags hes =>
    refine .builtIn ht hc htags fun d hd => ?_
    obtain ⟨e, he⟩ := exists_forall₂_iff.mp ⟨_, hes⟩ d hd
    have := Nat.lt_trans (hc.sizeOf_lt (mem_payloads.mp hd)) ht.sizeOf_only
    exact isExpression_of_ofTree he
  | invalid ht htag => exact .other ht htag
termination_by sizeOf t

theorem IsExpression.exists_ofTree {t : Tree} (h : t.IsExpression) :
    ∃ e, Expr.ofTree t = .ok e := by
  induction h with
  | counted ht hcount => exact ⟨_, Expr.ofTree_eq_ok_iff.mpr (.malformed ht hcount)⟩
  | nested ht _ ih =>
    obtain ⟨e, he⟩ := ih
    exact ⟨e, Expr.ofTree_eq_ok_iff.mpr (.nested ht he)⟩
  | @number _ n ht => exact ⟨_, Expr.ofTree_eq_ok_iff.mpr (.literal (v := .number n) ht)⟩
  | @string _ s ht => exact ⟨_, Expr.ofTree_eq_ok_iff.mpr (.literal (v := .string s) ht)⟩
  | @boolean _ b ht => exact ⟨_, Expr.ofTree_eq_ok_iff.mpr (.literal (v := .boolean b) ht)⟩
  | parameter ht => exact ⟨_, Expr.ofTree_eq_ok_iff.mpr (.parameter ht)⟩
  | access ht hc htags hname =>
    obtain ⟨name, hname⟩ := exists_nameTrees_iff.mpr hname
    exact ⟨_, Expr.ofTree_eq_ok_iff.mpr (.access ht hc htags hname)⟩
  | call ht hc htags hname _ ih =>
    obtain ⟨name, hname⟩ := exists_nameTrees_iff.mpr hname
    obtain ⟨es, hes⟩ := exists_forall₂_iff.mpr ih
    exact ⟨_, Expr.ofTree_eq_ok_iff.mpr (.call ht hc htags hname hes)⟩
  | builtIn ht hc htags _ ih =>
    obtain ⟨es, hes⟩ := exists_forall₂_iff.mpr ih
    exact ⟨_, Expr.ofTree_eq_ok_iff.mpr (.builtIn ht hc htags hes)⟩
  | other ht htag => exact ⟨_, Expr.ofTree_eq_ok_iff.mpr (.invalid ht htag)⟩

theorem exists_ofTree_iff_isExpression {t : Tree} :
    (∃ e, Expr.ofTree t = .ok e) ↔ t.IsExpression :=
  ⟨fun ⟨_, h⟩ => isExpression_of_ofTree h, IsExpression.exists_ofTree⟩

theorem exists_ofChild_iff {d : Tag × Tree} :
    (∃ i, Initializer.ofChild Expr.ofTree d = .ok i) ↔
      (d.1 = .value ∧ ∃ v, d.2 = .scalar v) ∨ (d.1 = .expression ∧ d.2.IsExpression) := by
  obtain ⟨tag, t⟩ := d
  simp only [Initializer.ofChild_eq_ok_iff, ← exists_ofTree_iff_isExpression]
  constructor
  · rintro ⟨i, ⟨v, h, -⟩ | ⟨t, e, h, he, -⟩⟩
    · cases h
      exact .inl ⟨rfl, v, rfl⟩
    · cases h
      exact .inr ⟨rfl, e, he⟩
  · rintro (⟨rfl, v, rfl⟩ | ⟨rfl, e, he⟩)
    · exact ⟨.literal v, .inl ⟨v, rfl, rfl⟩⟩
    · exact ⟨.expression e, .inr ⟨t, e, rfl, he, rfl⟩⟩

/-- What a declaration gives its variable can be read if at most one child is not its name, and
    that one is a scalar or an expression, as its tag says. -/
theorem exists_initializer_iff {cs : List (Tag × Tree)} :
    (∃ value : Option Initializer, List.Forall₂
      (fun d i => Initializer.ofChild Expr.ofTree d = .ok i) (without [.name] cs) value.toList) ↔
      (∀ d ∈ cs, d.1 = .name ∨ d.1 = .value ∨ d.1 = .expression) ∧
      (without [.name] cs).length ≤ 1 ∧ (∀ d ∈ payloads .value cs, ∃ v, d = .scalar v) ∧
      ∀ d ∈ payloads .expression cs, IsExpression d := by
  constructor
  · rintro ⟨value, hvalue⟩
    have hchild : ∀ d ∈ cs, d.1 ≠ .name →
        (d.1 = .value ∧ ∃ v, d.2 = .scalar v) ∨ (d.1 = .expression ∧ d.2.IsExpression) := by
      intro d hd hname
      exact exists_ofChild_iff.mp
        (exists_forall₂_iff.mp ⟨_, hvalue⟩ d (mem_without.mpr ⟨hd, by simpa using hname⟩))
    refine ⟨fun d hd => ?_, ?_, fun t ht => ?_, fun t ht => ?_⟩
    · by_cases hname : d.1 = .name
      · exact .inl hname
      · exact .inr ((hchild d hd hname).imp And.left And.left)
    · rw [hvalue.length_eq]
      cases value <;> simp
    · simpa using hchild _ (mem_payloads.mp ht) nofun
    · simpa using hchild _ (mem_payloads.mp ht) nofun
  · rintro ⟨htags, hcount, hliteral, hexpression⟩
    have hchild : ∀ d ∈ without [.name] cs, ∃ i, Initializer.ofChild Expr.ofTree d = .ok i := by
      rintro ⟨tag, t⟩ hd
      obtain ⟨hd, hname⟩ := mem_without.mp hd
      refine exists_ofChild_iff.mpr ?_
      obtain rfl | rfl | rfl := htags _ hd
      · exact absurd (List.mem_singleton_self _) hname
      · exact .inl ⟨rfl, hliteral t (mem_payloads.mpr hd)⟩
      · exact .inr ⟨rfl, hexpression t (mem_payloads.mpr hd)⟩
    obtain ⟨values, hvalues⟩ := exists_forall₂_iff.mpr hchild
    obtain ⟨value, rfl⟩ := exists_eq_toList_iff.mpr (hvalues.length_eq ▸ hcount)
    exact ⟨value, hvalues⟩

theorem isStatement_of_ofTree {tag : Tag} {t : Tree} {s : Stmt} (h : Stmt.ofTree tag t = .ok s) :
    IsStatement tag t := by
  cases Stmt.ofTree_eq_ok_iff.mp h with
  | malformed ht hcount => exact .counted ht hcount
  | wrapped ht hs =>
    have := ht.sizeOf_only
    exact .wrapped ht (isStatement_of_ofTree hs)
  | functionDefinition ht hname hparameters hbody =>
    refine .functionDefinition ht (exists_nameTrees_iff.mp ⟨_, hname⟩)
      (exists_map_string_iff.mp ⟨_, hparameters⟩) fun d hd => ?_
    obtain ⟨s, hs⟩ := exists_forall₂_iff.mp ⟨_, hbody⟩ d hd
    have := ht.sizeOf_lt (mem_without.mp hd).1
    exact isStatement_of_ofTree hs
  | conditional ht hconditions hbody =>
    refine .conditional ht (fun d hd => ?_) fun d hd => ?_
    · exact exists_ofTree_iff_isExpression.mp (exists_forall₂_iff.mp ⟨_, hconditions⟩ d hd)
    · obtain ⟨s, hs⟩ := exists_forall₂_iff.mp ⟨_, hbody⟩ d hd
      have := ht.sizeOf_lt (mem_without.mp hd).1
      exact isStatement_of_ofTree hs
  | returns he => exact .returns (isExpression_of_ofTree he)
  | declaration ht hname hvalue =>
    obtain ⟨htags, hcount, hliteral, hexpression⟩ := exists_initializer_iff.mp ⟨_, hvalue⟩
    exact .declaration ht htags (exists_nameTrees_iff.mp ⟨_, hname⟩) hcount hliteral hexpression
  | expression he => exact .expression (isExpression_of_ofTree he)
  | invalid htag => exact .other htag
termination_by sizeOf t

theorem IsStatement.exists_ofTree {tag : Tag} {t : Tree} (h : IsStatement tag t) :
    ∃ s, Stmt.ofTree tag t = .ok s := by
  induction h with
  | counted ht hcount => exact ⟨_, Stmt.ofTree_eq_ok_iff.mpr (.malformed ht hcount)⟩
  | wrapped ht _ ih =>
    obtain ⟨s, hs⟩ := ih
    exact ⟨s, Stmt.ofTree_eq_ok_iff.mpr (.wrapped ht hs)⟩
  | functionDefinition ht hname hparameters _ ih =>
    obtain ⟨name, hname⟩ := exists_nameTrees_iff.mpr hname
    obtain ⟨xs, hxs⟩ := exists_map_string_iff.mpr hparameters
    obtain ⟨body, hbody⟩ := exists_forall₂_iff.mpr ih
    exact ⟨_, Stmt.ofTree_eq_ok_iff.mpr (.functionDefinition ht hname hxs hbody)⟩
  | conditional ht hconditions _ ih =>
    obtain ⟨conditions, hconditions⟩ :=
      exists_forall₂_iff.mpr fun d hd => (hconditions d hd).exists_ofTree
    obtain ⟨body, hbody⟩ := exists_forall₂_iff.mpr ih
    exact ⟨_, Stmt.ofTree_eq_ok_iff.mpr (.conditional ht hconditions hbody)⟩
  | returns ht =>
    obtain ⟨e, he⟩ := ht.exists_ofTree
    exact ⟨_, Stmt.ofTree_eq_ok_iff.mpr (.returns he)⟩
  | declaration ht htags hname hcount hliteral hexpression =>
    obtain ⟨name, hname⟩ := exists_nameTrees_iff.mpr hname
    obtain ⟨value, hvalue⟩ := exists_initializer_iff.mpr ⟨htags, hcount, hliteral, hexpression⟩
    exact ⟨_, Stmt.ofTree_eq_ok_iff.mpr (.declaration ht hname hvalue)⟩
  | expression ht =>
    obtain ⟨e, he⟩ := ht.exists_ofTree
    exact ⟨_, Stmt.ofTree_eq_ok_iff.mpr (.expression he)⟩
  | other htag => exact ⟨_, Stmt.ofTree_eq_ok_iff.mpr (.invalid htag)⟩

theorem exists_ofTree_iff_isStatement {tag : Tag} {t : Tree} :
    (∃ s, Stmt.ofTree tag t = .ok s) ↔ IsStatement tag t :=
  ⟨fun ⟨_, h⟩ => isStatement_of_ofTree h, IsStatement.exists_ofTree⟩

/-- What stands at the top is looked into only under three tags, and there it is read as the
    statement that it is. -/
theorem exists_ofTree_iff_item {tag : Tag} {t : Tree} :
    (∃ i, Item.ofTree tag t = .ok i) ↔ (tag ∈ Item.tags → IsStatement tag t) := by
  simp only [← exists_ofTree_iff_isStatement]
  constructor
  · rintro ⟨i, hi⟩ htag
    cases Item.ofTree_eq_ok_iff.mp hi with
    | functionDefinition hs | conditional hs | returns hs => exact ⟨_, hs⟩
    | invalid hinvalid => exact absurd htag hinvalid
  · intro h
    by_cases htag : tag ∈ Item.tags
    · obtain ⟨s, hs⟩ := h htag
      cases Stmt.ofTree_eq_ok_iff.mp hs with
      | functionDefinition => exact ⟨_, Item.ofTree_eq_ok_iff.mpr (.functionDefinition hs)⟩
      | conditional => exact ⟨_, Item.ofTree_eq_ok_iff.mpr (.conditional hs)⟩
      | returns => exact ⟨_, Item.ofTree_eq_ok_iff.mpr (.returns hs)⟩
      | malformed | wrapped | declaration | expression => exact absurd htag (by decide)
      | invalid hinvalid => exact absurd (Item.tags_subset htag) hinvalid
    · exact ⟨_, Item.ofTree_eq_ok_iff.mpr (.invalid htag)⟩

end Tree

/-- The documents of the grammar are exactly the trees that are read as a program. -/
theorem Program.exists_ofTree_eq_ok_iff (t : Tree) :
    (∃ p, Program.ofTree t = .ok p) ↔ t.IsDocument := by
  simp only [Program.ofTree_eq_ok_iff, Tree.IsDocument, Tree.IsProgram,
    ← Tree.exists_ofTree_iff_item, ← exists_forall₂_iff]
  constructor
  · rintro ⟨p, payload, cs, rfl, hcs, hitems⟩
    exact ⟨payload, rfl, cs, hcs, p.items, hitems⟩
  · rintro ⟨payload, rfl, cs, hcs, items, hitems⟩
    exact ⟨⟨items⟩, payload, cs, rfl, hcs, hitems⟩

end TreeWalk
