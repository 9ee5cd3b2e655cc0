-- SUMMARY: Payloads that are never looked at, and that nothing depends on them.
import TreeWalk.Proofs.Interchange

/-! # Unread payloads

Not every payload says something. An operator is named by its tag alone. A child whose tag has
no meaning where it stands is kept as that tag, and a wrapper that has not one child is kept as
their number. What stands under such tags may be anything, also what no reader would take, as
long as it stands for as many children as before.

`Tag.UnreadIn` says which children these are: it depends on the tag that their node stands
under, on their own tag, and in a wrapper on their number.
-/

namespace TreeWalk

/-- In a node with this many children that stands under `place`, nothing is read from the
    children with this tag. -/
def Tag.UnreadIn (tag : Tag) (place : Option Tag) (count : Nat) : Prop :=
  match place with
  | some .expression | some .returns => count ≠ 1 ∨ tag ∉ Expr.tags
  | some .statement => count ≠ 1 ∨ tag ∉ Stmt.tags
  | some .functionDefinition => tag ∉ .name :: .parameter :: Stmt.tags
  | some .conditional => tag ∉ Stmt.tags
  | some .builtInFunction => tag.isOperator = true
  | some .program => tag ∉ Item.tags
  | _ => False

/-- The number of children that entries stand for. -/
def childCount (entries : List (String × Tree)) : Nat :=
  (entries.flatMap fun e => e.2.items).length

/-- An entry of a node, with another payload if nothing is read from this one: any that stands
    for as many children. Other payloads are related by `R`, under the tag that they have. -/
inductive MaskedEntry (R : Option Tag → Tree → Tree → Prop) :
    Option Tag × Nat → String × Tree → String × Tree → Prop
  | keep {node : Option Tag × Nat} {key : String} {t t' : Tree} :
      R (Tag.ofText? key) t t' → MaskedEntry R node (key, t) (key, t')
  | mask {place : Option Tag} {count : Nat} {tag : Tag} {t t' : Tree} :
      tag.UnreadIn place count → t.items.length = t'.items.length →
        MaskedEntry R (place, count) (tag.text, t) (tag.text, t')

/-- `Tree.Masked place t t'` holds if `t'` is `t` with other payloads in any number of places
    where they are not read. The tree stands under `place`, unless it is a whole document or
    stands under a key that is no tag. -/
inductive Tree.Masked : Option Tag → Tree → Tree → Prop
  | null {place : Option Tag} : Masked place .null .null
  | scalar {place : Option Tag} (v : Value) : Masked place (.scalar v) (.scalar v)
  | list {place : Option Tag} {xs ys : List Tree} :
      xs.length = ys.length → (∀ {x y}, (x, y) ∈ xs.zip ys → Masked place x y) →
        Masked place (.list xs) (.list ys)
  | object {place : Option Tag} {es fs : List (String × Tree)} :
      es.length = fs.length →
        (∀ {e f}, (e, f) ∈ es.zip fs → MaskedEntry Masked (place, childCount es) e f) →
          Masked place (.object es) (.object fs)

/-! ## Children -/

theorem length_of_entriesChildren {parent : Tag} {es : List (String × Tree)}
    {cs : List (Tag × Tree)} (h : entriesChildren parent es = .ok cs) :
    cs.length = childCount es := by
  have hclean := entriesChildren_eq_ok_iff.mp h
  clear h
  induction hclean with
  | nil => rfl
  | cons _ _ ih => simp [childCount, ih]

/-- What is not read from a child does not matter. -/
theorem Tag.UnreadIn.readAlike {tag place : Tag} {count : Nat} (h : tag.UnreadIn (some place) count)
    (hcount : place.node.isWrapper = true → count = 1) (t t' : Tree) :
    ReadAlike id place.node [(tag, t)] [(tag, t')] := by
  cases place with
  | expression | returns =>
    have htag := h.resolve_left fun hne => hne (hcount rfl)
    refine SameResult.of_eq ?_
    rw [Expr.ofChildren_of_notMem htag, Expr.ofChildren_of_notMem htag]
  | statement =>
    have htag := h.resolve_left fun hne => hne (hcount rfl)
    refine SameResult.of_eq ?_
    rw [Stmt.ofChildren, Stmt.ofChildren, Stmt.ofTree_of_notMem htag, Stmt.ofTree_of_notMem htag]
  | functionDefinition =>
    obtain ⟨hname, hparameter, htag⟩ :
        tag ≠ .name ∧ tag ≠ .parameter ∧ tag ∉ Stmt.tags := by
      simpa [UnreadIn] using h
    refine fun name => SameResult.of_eq ?_
    rw [definitionParts_cons hname hparameter, definitionParts_cons hname hparameter,
      Stmt.ofTree_of_notMem htag, Stmt.ofTree_of_notMem htag]
  | conditional =>
    have htag : tag ≠ .expression := by
      rintro rfl
      exact h (by decide)
    refine SameResult.of_eq ?_
    rw [conditionalParts_cons htag, conditionalParts_cons htag, Stmt.ofTree_of_notMem h,
      Stmt.ofTree_of_notMem h]
  | builtInFunction =>
    cases tag with
    | equality | plus | minus => exact SameResult.refl _
    | _ => cases h
  | program =>
    have hitems : ∀ c, itemsOf [(tag, c)] = .ok [.invalid tag] := by
      intro c
      simp only [itemsOf, Item.ofTree_of_notMem h]
      rfl
    exact SameResult.of_eq ((hitems t).trans (hitems t').symm)
  | _ => exact h.elim

/-- A child of a node, as `MaskedEntry` relates it: it is related itself, or it is not read. -/
def MaskedChild (place : Tag) (count : Nat) (c d : Tag × Tree) : Prop :=
  c.1 = d.1 ∧ (Tree.Masked (some c.1) c.2 d.2 ∨ c.1.UnreadIn (some place) count)

theorem Tree.Masked.items {place : Option Tag} {t t' : Tree} (h : Masked place t t') :
    List.Forall₂ (Masked place) t.items t'.items := by
  cases h with
  | null => exact .cons .null .nil
  | scalar v => exact .cons (.scalar v) .nil
  | list hlength hitems => exact List.forall₂_iff_zip.mpr ⟨hlength, hitems⟩
  | object hlength hentries => exact .cons (.object hlength hentries) .nil

theorem MaskedEntry.children {place : Tag} {count : Nat} {e f : String × Tree}
    (h : MaskedEntry Tree.Masked (some place, count) e f) :
    Alike (id : ShapeError → ShapeError) (List.Forall₂ (MaskedChild place count))
      (entryChildren place.node e.1 e.2) (entryChildren place.node f.1 f.2) := by
  cases h with
  | keep h =>
    refine entryChildren_alike fun tag htag => ?_
    rw [htag] at h
    exact h.items.imp fun _ _ h => ⟨rfl, .inl h⟩
  | mask hunread hlength =>
    refine entryChildren_alike fun tag htag => ?_
    rw [Tag.ofText?_text] at htag
    cases htag
    rw [List.forall₂_iff_zip]
    exact ⟨hlength, fun _ => ⟨rfl, .inr hunread⟩⟩

/-- What is not read does not matter to anything that looks under the tag. -/
theorem Tree.Masked.sameUnder {tag : Tag} {t t' : Tree} (h : Masked (some tag) t t') :
    SameUnder id tag t t' := by
  cases h with
  | null => exact .refl id tag .null
  | scalar v => exact .refl id tag (.scalar v)
  | list => exact .of_children rfl (.error rfl)
  | @object _ es fs hlength hentries =>
    have halike := List.forall₂_iff_zip.mpr ⟨hlength, fun hmem => (hentries hmem).children⟩
    refine .of_children rfl (readAlike_of_entries halike fun cs ds hcs hds c hc d hd hchild => ?_)
    obtain ⟨tag', c⟩ := c
    obtain ⟨_, d⟩ := d
    obtain ⟨rfl, hmasked | hunread⟩ := hchild
    · intro _
      have hsmaller : sizeOf c < sizeOf es := sizeOf_of_entriesChildren hcs hc
      exact hmasked.sameUnder.readAlike tag.node
    · intro hcount
      rw [length_of_entriesChildren hcs] at hcount
      exact hunread.readAlike hcount c d
termination_by sizeOf t
decreasing_by
  subst_vars
  simp only [object.sizeOf_spec]
  omega

/-! ## Documents -/

theorem Tree.Masked.of_entries {place : Option Tag} {es fs : List (String × Tree)}
    (h : List.Forall₂ (MaskedEntry Masked (place, childCount es)) es fs) :
    Masked place (.object es) (.object fs) :=
  .object h.length_eq fun hmem => (List.forall₂_iff_zip.mp h).2 hmem

theorem MaskedEntry.keep_text {node : Option Tag × Nat} (tag : Tag) {t t' : Tree}
    (h : Tree.Masked (some tag) t t') :
    MaskedEntry Tree.Masked node (tag.text, t) (tag.text, t') := by
  rw [← Tag.ofText?_text tag] at h
  exact .keep h

/-- Payloads that carry no information do not matter: whatever stands in their place, the
    document means the same program, or is refused for the same reason. -/
theorem unread_payloads_do_not_matter {t t' : Tree} (h : Tree.Masked none t t') :
    Program.ofTree t = Program.ofTree t' := by
  cases h with
  | null | scalar | list => rfl
  | object hlength hentries =>
    refine (Program.ofTree_same (List.forall₂_iff_zip.mpr ⟨hlength, fun hmem => ?_⟩)).eq
    cases hentries hmem with
    | mask hunread => exact hunread.elim
    | @keep _ key _ _ hpayload =>
      refine ⟨rfl, fun hkey => ?_⟩
      have hkey : key = Tag.program.text := hkey
      rw [hkey, Tag.ofText?_text] at hpayload
      exact hpayload.sameUnder

/-- A program with a conditional that has a malformed condition and a name for a statement, with
    values for items, and with a sum. What nobody reads is `unread` under an item and an
    operator, `first` and `second` in the malformed condition, and `other` under the name. -/
def Tree.unreadSample (unread first second other : Tree) : Tree :=
  .object [(Tag.program.text, .object [
    (Tag.conditional.text, .object [
      (Tag.expression.text, .object [(Tag.number.text, first), (Tag.string.text, second)]),
      (Tag.name.text, other)]),
    (Tag.value.text, .list [.null, unread]),
    (Tag.returns.text, .object [(Tag.builtInFunction.text, .object [
      (Tag.plus.text, unread),
      (Tag.expression.text, .object [(Tag.boolean.text, .scalar (.boolean true))])])])])]

/-- Scalars of the wrong type, unknown keys and lists in the place of what stood there. -/
theorem unread_payloads_do_not_matter_sample :
    Tree.Masked none
        (.unreadSample .null (.scalar (.number (.integer 1))) (.scalar (.string "s")) .null)
        (.unreadSample (.object [("nonsense", .null)]) .null (.list [.list []])
          (.scalar (.boolean false))) ∧
      Program.ofTree
          (.unreadSample .null (.scalar (.number (.integer 1))) (.scalar (.string "s")) .null) =
        Program.ofTree (.unreadSample (.object [("nonsense", .null)]) .null (.list [.list []])
          (.scalar (.boolean false))) := by
  have operand : Tree.Masked (some .expression)
      (.object [(Tag.boolean.text, .scalar (.boolean true))])
      (.object [(Tag.boolean.text, .scalar (.boolean true))]) :=
    .of_entries (.cons (.keep_text .boolean (.scalar _)) .nil)
  have hmasked : Tree.Masked none
      (.unreadSample .null (.scalar (.number (.integer 1))) (.scalar (.string "s")) .null)
      (.unreadSample (.object [("nonsense", .null)]) .null (.list [.list []])
        (.scalar (.boolean false))) := by
    refine .of_entries (.cons (.keep_text .program (.of_entries (.cons ?conditional
      (.cons (.mask ?items rfl) (.cons ?returns .nil))))) .nil)
    case items => exact (by decide : Tag.value ∉ Item.tags)
    case conditional =>
      refine .keep_text .conditional (.of_entries (.cons ?condition (.cons (.mask ?name rfl) .nil)))
      case name => exact (by decide : Tag.name ∉ Stmt.tags)
      case condition =>
        exact .keep_text .expression (.of_entries
          (.cons (.mask (.inl (by decide)) rfl) (.cons (.mask (.inl (by decide)) rfl) .nil)))
    case returns =>
      exact .keep_text .returns (.of_entries (.cons (.keep_text .builtInFunction (.of_entries
        (.cons (.mask rfl rfl) (.cons (.keep_text .expression operand) .nil)))) .nil))
  exact ⟨hmasked, unread_payloads_do_not_matter hmasked⟩

end TreeWalk
