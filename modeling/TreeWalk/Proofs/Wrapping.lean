-- SUMMARY: Wrappers around expressions and statements, and that they say nothing.
import TreeWalk.Proofs.Interchange

/-! # Wrappers

An expression may stand in an object of its own under the expression tag, and a statement with
its tag may stand in an object under the statement tag, inside another such object, and so on.
However many wrappers there are and wherever they are, the document means the same.

One tag is a condition, a statement or a wrapper, depending on where it stands: an expression
under a conditional is no statement of its body, and a name of a definition is none either.
`Tag.IsStatementIn` says which entries of a node may be wrapped as statements. Lists are not
wrapped, because they are spread out.
-/

namespace TreeWalk

/-- Children with this tag are statements in a node that stands under `place`. -/
def Tag.IsStatementIn (tag : Tag) (place : Option Tag) : Prop :=
  match place with
  | some .statement => True
  | some .functionDefinition => tag ≠ .name ∧ tag ≠ .parameter
  | some .conditional => tag ≠ .expression
  | _ => False

/-- An entry of a node that stands under `place`, in any number of statement wrappers if it is
    a statement there. Payloads are related by `R`, under the tag that they have. -/
inductive WrappedEntry (R : Option Tag → Tree → Tree → Prop) :
    Option Tag → String × Tree → String × Tree → Prop
  | keep {place : Option Tag} {key : String} {t t' : Tree} :
      R (Tag.ofText? key) t t' → WrappedEntry R place (key, t) (key, t')
  | wrap {place : Option Tag} {tag : Tag} {t : Tree} {f : String × Tree} :
      tag.IsStatementIn place → (∀ items, t ≠ .list items) →
        WrappedEntry R (some .statement) (tag.text, t) f →
          WrappedEntry R place (tag.text, t) (Tag.statement.text, .object [f])

/-- `Tree.Wrapped place t t'` holds if `t'` is `t` with wrappers around any number of
    expressions and statements in it. The tree stands under `place`, unless it is a whole
    document or stands under a key that is no tag. -/
inductive Tree.Wrapped : Option Tag → Tree → Tree → Prop
  | null {place : Option Tag} : Wrapped place .null .null
  | scalar {place : Option Tag} (v : Value) : Wrapped place (.scalar v) (.scalar v)
  | list {place : Option Tag} {xs ys : List Tree} :
      xs.length = ys.length → (∀ {x y}, (x, y) ∈ xs.zip ys → Wrapped place x y) →
        Wrapped place (.list xs) (.list ys)
  | object {place : Option Tag} {es fs : List (String × Tree)} :
      es.length = fs.length → (∀ {e f}, (e, f) ∈ es.zip fs → WrappedEntry Wrapped place e f) →
        Wrapped place (.object es) (.object fs)
  | wrap {place : Option Tag} {t t' : Tree} :
      place = some .returns ∨ place = some .expression → (∀ items, t ≠ .list items) →
        Wrapped (some .expression) t t' →
          Wrapped place t (.object [(Tag.expression.text, t')])

/-! ## Wrappers with one child -/

namespace Tree

theorem clean_single (tag : Tag) {t : Tree} (ht : ∀ items, t ≠ .list items) :
    (object [(tag.text, t)]).Clean [(tag, t)] := by
  have hclean : CleanEntries [(tag.text, t)] (t.items.map (Prod.mk tag) ++ []) :=
    .cons (fun _ => ht []) .nil
  rw [items_of_ne_list ht] at hclean
  exact .object hclean

/-- A wrapper is no list, and neither is what is wrapped in it. -/
theorem Wrapped.ne_list {place : Option Tag} {t t' : Tree} (h : Wrapped place t t')
    (ht : ∀ items, t ≠ .list items) : ∀ items, t' ≠ .list items := by
  cases h with
  | list => exact absurd rfl (ht _)
  | _ => nofun

end Tree

theorem Expr.ofTree_wrapped {t : Tree} (ht : ∀ items, t ≠ .list items) :
    ofTree (.object [(Tag.expression.text, t)]) = ofTree t := by
  rw [ofTree_eq, Tree.children_eq_ok_iff.mpr (Tree.clean_single .expression ht)]
  rfl

variable {ε : Type} {view : ShapeError → ε}

/-- Statements of a body may be exchanged, whatever their tags are. -/
theorem ReadAlike.of_stmt {place tag tag' : Tag} {t t' : Tree} (h : tag.IsStatementIn (some place))
    (h' : tag'.IsStatementIn (some place))
    (hstmt : SameResult view (Stmt.ofTree tag t) (Stmt.ofTree tag' t')) :
    ReadAlike view place.node [(tag, t)] [(tag', t')] := by
  cases place with
  | statement => exact hstmt
  | functionDefinition =>
    intro name
    rw [definitionParts_cons h.1 h.2, definitionParts_cons h'.1 h'.2]
    exact hstmt.before _
  | conditional =>
    change SameResult view (conditionalParts _ _ [(tag, t)]) (conditionalParts _ _ [(tag', t')])
    rw [conditionalParts_cons h, conditionalParts_cons h']
    exact hstmt.before _
  | _ => exact h.elim

/-! ## Children -/

/-- A child of a node, as `WrappedEntry` relates it. -/
inductive WrappedChild (place : Tag) : Tag × Tree → Tag × Tree → Prop
  | keep {tag : Tag} {t t' : Tree} :
      Tree.Wrapped (some tag) t t' → WrappedChild place (tag, t) (tag, t')
  | wrap {tag : Tag} {t : Tree} {f : String × Tree} :
      tag.IsStatementIn (some place) → (∀ items, t ≠ .list items) →
        WrappedEntry Tree.Wrapped (some .statement) (tag.text, t) f →
          WrappedChild place (tag, t) (.statement, .object [f])

theorem Tree.Wrapped.items {place : Option Tag} {t t' : Tree} (h : Wrapped place t t') :
    List.Forall₂ (Wrapped place) t.items t'.items := by
  cases h with
  | null => exact .cons .null .nil
  | scalar v => exact .cons (.scalar v) .nil
  | list hlength hitems => exact List.forall₂_iff_zip.mpr ⟨hlength, hitems⟩
  | object hlength hentries => exact .cons (.object hlength hentries) .nil
  | wrap hplace ht h =>
    rw [items_of_ne_list ht]
    exact .cons (.wrap hplace ht h) .nil

theorem WrappedEntry.children {place : Tag} {e f : String × Tree}
    (h : WrappedEntry Tree.Wrapped (some place) e f) :
    Alike (id : ShapeError → ShapeError) (List.Forall₂ (WrappedChild place))
      (entryChildren place.node e.1 e.2) (entryChildren place.node f.1 f.2) := by
  cases h with
  | keep h =>
    refine entryChildren_alike fun tag htag => ?_
    rw [htag] at h
    exact h.items.imp fun _ _ h => .keep h
  | @wrap _ tag t f hstatement ht hentry =>
    have hwrapper := entryChildren_text place.node .statement (t := .object [f]) nofun
    rw [entryChildren_text place.node tag ht, hwrapper]
    exact .ok (.cons (.wrap hstatement ht hentry) .nil)

/-! ## Reading -/

theorem sizeOf_payload_lt (f : String × Tree) : sizeOf f.2 < sizeOf (Tree.object [f]) := by
  obtain ⟨key, t⟩ := f
  simp only [Tree.object.sizeOf_spec, List.cons.sizeOf_spec, Prod.mk.sizeOf_spec]
  omega

/-- A wrapped statement is the statement that is wrapped, if that holds of what is below. -/
theorem WrappedEntry.same_stmt {place : Option Tag} {tag : Tag} {t : Tree} {f : String × Tree}
    (h : WrappedEntry Tree.Wrapped place (tag.text, t) f) (ht : ∀ items, t ≠ .list items)
    (below : ∀ s', sizeOf s' ≤ sizeOf f.2 → Tree.Wrapped (some tag) t s' → SameUnder id tag t s') :
    ∃ tag' t', f = (tag'.text, t') ∧ (∀ items, t' ≠ .list items) ∧
      Stmt.ofTree tag t = Stmt.ofTree tag' t' := by
  generalize he : (tag.text, t) = e at h
  induction h with
  | keep h =>
    cases he
    rw [Tag.ofText?_text] at h
    exact ⟨tag, _, rfl, h.ne_list ht, (below _ (Nat.le_refl _) h).stmt.eq⟩
  | @wrap _ _ _ f _ _ _ ih =>
    have hsmaller := sizeOf_payload_lt f
    obtain ⟨tag', t', rfl, ht', hstmt⟩ := ih (fun s' hs' =>
      below s' (Nat.le_of_lt (Nat.lt_of_le_of_lt hs' hsmaller))) he
    rw [← Stmt.ofTree_wrapped (Tree.clean_single tag' ht')] at hstmt
    exact ⟨.statement, _, rfl, nofun, hstmt⟩

theorem Tag.IsStatementIn.statement {tag : Tag} {place : Option Tag} (h : tag.IsStatementIn place) :
    Tag.statement.IsStatementIn place := by
  unfold IsStatementIn at h ⊢
  split at h <;> simp_all

/-- Wrappers do not matter to anything that looks under the tag. -/
theorem Tree.Wrapped.sameUnder {tag : Tag} {t t' : Tree} (h : Wrapped (some tag) t t') :
    SameUnder id tag t t' := by
  -- a wrapper leaves the first tree as it is, so the induction is on the size of the second
  induction hsize : sizeOf t' using Nat.strongRecOn generalizing tag t t' with
  | _ n ih =>
    subst hsize
    cases h with
    | null => exact .refl id tag .null
    | scalar v => exact .refl id tag (.scalar v)
    | list => exact .of_children rfl (.error rfl)
    | @wrap _ _ s' hplace ht h =>
      have hexpr := (ih _ (sizeOf_payload_lt (Tag.expression.text, s')) h rfl).ofTree.eq
      rw [← Expr.ofTree_wrapped (h.ne_list ht)] at hexpr
      exact .of_expr (by simpa using hplace) (.of_eq hexpr)
    | @object _ es fs hlength hentries =>
      have halike := List.forall₂_iff_zip.mpr ⟨hlength, fun hmem => (hentries hmem).children⟩
      refine .of_children rfl (readAlike_of_entries halike ?_)
      intro cs ds hcs hds c hc d hd hchild _
      have hsmaller := sizeOf_of_children (t := .object fs) hds hd
      cases hchild with
      | keep h => exact (ih _ hsmaller h rfl).readAlike tag.node
      | @wrap _ _ f hstatement ht hentry =>
        have hpayload := Nat.lt_trans (sizeOf_payload_lt f) hsmaller
        obtain ⟨tag', t', rfl, ht', hstmt⟩ := hentry.same_stmt ht fun s' hs' h =>
          ih _ (Nat.lt_of_le_of_lt hs' hpayload) h rfl
        rw [← Stmt.ofTree_wrapped (Tree.clean_single tag' ht')] at hstmt
        exact .of_stmt hstatement hstatement.statement (.of_eq hstmt)

/-! ## Documents -/

theorem Tree.Wrapped.of_entries {place : Option Tag} {es fs : List (String × Tree)}
    (h : List.Forall₂ (WrappedEntry Wrapped place) es fs) :
    Wrapped place (.object es) (.object fs) :=
  .object h.length_eq fun hmem => (List.forall₂_iff_zip.mp h).2 hmem

theorem WrappedEntry.keep_text {place : Option Tag} (tag : Tag) {t t' : Tree}
    (h : Tree.Wrapped (some tag) t t') :
    WrappedEntry Tree.Wrapped place (tag.text, t) (tag.text, t') := by
  rw [← Tag.ofText?_text tag] at h
  exact .keep h

/-- Wrappers are transparent at every position and depth: with any number of them around its
    expressions and statements, the document means the same program, or is refused for the same
    reason. -/
theorem wrappers_are_transparent {t t' : Tree} (h : Tree.Wrapped none t t') :
    Program.ofTree t = Program.ofTree t' := by
  cases h with
  | null | scalar | list => rfl
  | wrap hplace => simp at hplace
  | object hlength hentries =>
    refine (Program.ofTree_same (List.forall₂_iff_zip.mpr ⟨hlength, fun hmem => ?_⟩)).eq
    cases hentries hmem with
    | wrap hstatement => exact hstatement.elim
    | @keep _ key _ _ hpayload =>
      refine ⟨rfl, fun hkey => ?_⟩
      have hkey : key = Tag.program.text := hkey
      rw [hkey, Tag.ofText?_text] at hpayload
      exact hpayload.sameUnder

/-- A program with a conditional, with these entries for its condition and its body. -/
def Tree.wrappingSample (condition body : String × Tree) : Tree :=
  .object [(Tag.program.text, .object [(Tag.conditional.text, .object [condition, body])])]

/-- Two wrappers around a condition and around a statement, and one around what it returns. -/
theorem wrappers_are_transparent_sample :
    let true_ := Tree.object [(Tag.boolean.text, .scalar (.boolean true))]
    let wrapped := fun t => Tree.object [(Tag.expression.text, t)]
    let t := Tree.wrappingSample (Tag.expression.text, true_) (Tag.returns.text, true_)
    let t' := Tree.wrappingSample (Tag.expression.text, wrapped (wrapped true_))
      (Tag.statement.text, .object [(Tag.statement.text, .object [
        (Tag.returns.text, wrapped true_)])])
    Tree.Wrapped none t t' ∧ Program.ofTree t = Program.ofTree t' := by
  intro true_ wrapped t t'
  have htrue : Tree.Wrapped (some .expression) true_ true_ :=
    .of_entries (.cons (.keep_text .boolean (.scalar _)) .nil)
  have hcondition : Tree.Wrapped (some .expression) true_ (wrapped (wrapped true_)) :=
    .wrap (.inr rfl) nofun (.wrap (.inr rfl) nofun htrue)
  have hreturned : Tree.Wrapped (some .returns) true_ (wrapped true_) :=
    .wrap (.inl rfl) nofun htrue
  have hbody : WrappedEntry Tree.Wrapped (some .conditional) (Tag.returns.text, true_)
      (Tag.statement.text, .object [(Tag.statement.text, .object [
        (Tag.returns.text, wrapped true_)])]) :=
    .wrap nofun nofun (.wrap trivial nofun (.keep_text .returns hreturned))
  have hwrapped : Tree.Wrapped none t t' :=
    .of_entries (.cons (.keep_text .program (.of_entries (.cons (.keep_text .conditional
      (.of_entries (.cons (.keep_text .expression hcondition) (.cons hbody .nil)))) .nil))) .nil)
  exact ⟨hwrapped, wrappers_are_transparent hwrapped⟩

end TreeWalk
