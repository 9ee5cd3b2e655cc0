-- SUMMARY: Runs on finite numbers stay among finite numbers, and there equality is reflexive.
import TreeWalk.Proofs.Equality
import TreeWalk.Proofs.Reading
import TreeWalk.Proofs.Usage

/-! # Finite numbers

The floats have infinities and values that are no numbers, and the language has none of them: no
literal of a document is one, and a sum or a difference that would be one is an error instead.
What is finite at the start therefore stays finite, through variables, arguments and returned
values, whatever the run ends in.

One of these values, NaN, is not equal to itself. Without it every value is equal to itself, so
that an expression that has a value compares as equal to itself.
-/

namespace TreeWalk

/-! ## Floats -/

theorem isFinite_iff (x : Float) : x.isFinite = true ↔ x.isInf = false ∧ x.isNaN = false := by
  change x.toModel.unpack.isFinite = true ↔
    x.toModel.unpack.isInf = false ∧ x.toModel.unpack.isNaN = false
  cases x.toModel.unpack with
  | infinity sign =>
    exact iff_of_false Bool.false_ne_true fun h => Bool.false_ne_true h.1.symm
  | notANumber => exact iff_of_false Bool.false_ne_true fun h => Bool.false_ne_true h.2.symm
  | zero sign => exact iff_of_true rfl ⟨rfl, rfl⟩
  | finite sign mantissa exponent => exact iff_of_true rfl ⟨rfl, rfl⟩

/-! ## Values -/

/-- Neither an infinity nor a NaN, which only a float can be. -/
def Number.Finite : Number → Prop
  | .integer _ => True
  | .float x => x.isInf = false ∧ x.isNaN = false

def Value.Finite : Value → Prop
  | .number n => n.Finite
  | .string _ | .boolean _ => True

theorem finite_of_finite? {x y : Float} (h : finite? x = some y) : (Number.float y).Finite := by
  unfold finite? at h
  split at h
  · next hfinite => exact Option.some.inj h ▸ (isFinite_iff x).mp hfinite
  · cases h

theorem Number.finite_of_map_integer {i : Option Int64} {n : Number}
    (h : i.map .integer = some n) : n.Finite := by
  obtain ⟨i, -, rfl⟩ := Option.map_eq_some_iff.mp h
  exact trivial

theorem Number.finite_of_map_float {x : Float} {n : Number}
    (h : (finite? x).map .float = some n) : n.Finite := by
  obtain ⟨y, hy, rfl⟩ := Option.map_eq_some_iff.mp h
  exact finite_of_finite? hy

theorem Number.finite_of_add? {l r n : Number} (h : l.add? r = some n) : n.Finite := by
  unfold Number.add? at h
  split at h
  · exact finite_of_map_integer h
  · exact finite_of_map_float h

theorem Number.finite_of_sub? {l r n : Number} (h : l.sub? r = some n) : n.Finite := by
  unfold Number.sub? at h
  split at h
  · exact finite_of_map_integer h
  · exact finite_of_map_float h

theorem Number.finite_of_add {l r n : Number} (h : l.add r = .ok n) : n.Finite := by
  unfold Number.add at h
  split at h
  · next hn => exact Except.ok.inj h ▸ finite_of_add? hn
  · cases h

theorem Number.finite_of_sub {l r n : Number} (h : l.sub r = .ok n) : n.Finite := by
  unfold Number.sub at h
  split at h
  · next hn => exact Except.ok.inj h ▸ finite_of_sub? hn
  · cases h

/-- Whatever the operands are, a result is finite. -/
theorem Operator.finite_of_apply {operator : Operator} {l r v : Value}
    (h : operator.apply l r = .ok v) : v.Finite := by
  match operator, l, r with
  | .equality, l, r =>
    cases h
    exact trivial
  | .plus, .number l, .number r =>
    obtain ⟨n, hn, rfl⟩ := map_eq_ok_iff.mp h
    exact Number.finite_of_add hn
  | .plus, .string l, .string r =>
    cases h
    exact trivial
  | .plus, .boolean _, _ | .plus, .number _, .string _ | .plus, .number _, .boolean _
  | .plus, .string _, .number _ | .plus, .string _, .boolean _ => cases h
  | .minus, l, r =>
    obtain ⟨l, -, h⟩ := bind_eq_ok_iff.mp h
    obtain ⟨r, -, h⟩ := bind_eq_ok_iff.mp h
    obtain ⟨n, hn, h⟩ := bind_eq_ok_iff.mp h
    cases h
    exact Number.finite_of_sub hn

theorem Number.Finite.beq_self {n : Number} (h : n.Finite) : (n == n) = true := by
  refine Bool.eq_true_of_not_eq_false fun hunequal => ?_
  obtain ⟨x, rfl, hnan⟩ := n.beq_self_eq_false_iff.mp hunequal
  exact Bool.false_ne_true (h.2.symm.trans hnan)

theorem Value.Finite.beq_self : {v : Value} → v.Finite → (v == v) = true
  | .number _, h => Number.Finite.beq_self h
  | .string s, _ => beq_self_eq_true s
  | .boolean b, _ => beq_self_eq_true b

/-- Any names, but finite numbers only. -/
def Usage.finite : Usage where
  Reads _ := True
  Calls _ := True
  Holds := Value.Finite
  holds_apply _ _ h := Operator.finite_of_apply h

/-! ## Documents

What a document says is finite if its scalars are. -/

inductive Tree.Finite : Tree → Prop
  | null : Finite .null
  | scalar {v : Value} (hv : v.Finite) : Finite (.scalar v)
  | list {items : List Tree} (h : ∀ t ∈ items, Finite t) : Finite (.list items)
  | object {entries : List (String × Tree)} (h : ∀ entry ∈ entries, Finite entry.2) :
      Finite (.object entries)

theorem Tree.Finite.items {t : Tree} (h : t.Finite) : ∀ c ∈ t.items, c.Finite := by
  cases h with
  | list h => exact h
  | null => simpa [Tree.items] using Finite.null
  | scalar hv => simpa [Tree.items] using Finite.scalar hv
  | object h => simpa [Tree.items] using Finite.object h

theorem CleanEntries.finite {entries : List (String × Tree)} {cs : List (Tag × Tree)}
    (h : CleanEntries entries cs) (hentries : ∀ entry ∈ entries, entry.2.Finite) :
    ∀ c ∈ cs, c.2.Finite := by
  induction h with
  | nil => exact fun c hc => absurd hc List.not_mem_nil
  | @cons tag t entries cs _ _ ih =>
    obtain ⟨ht, hentries⟩ := List.forall_mem_cons.mp hentries
    intro c hc
    rcases List.mem_append.mp hc with hc | hc
    · obtain ⟨d, hd, rfl⟩ := List.mem_map.mp hc
      exact Tree.Finite.items ht d hd
    · exact ih hentries c hc

theorem Tree.Clean.finite {t : Tree} {cs : List (Tag × Tree)} (h : t.Clean cs) (ht : t.Finite) :
    ∀ c ∈ cs, c.2.Finite := by
  cases h with
  | object hentries =>
    cases ht with
    | object h => exact hentries.finite h

theorem Tree.Clean.finite_only {t c : Tree} {tag : Tag} (h : t.Clean [(tag, c)]) (ht : t.Finite) :
    c.Finite :=
  h.finite ht (tag, c) List.mem_cons_self

theorem Tree.finite_of_scalar {v : Value} (h : (Tree.scalar v).Finite) : v.Finite := by
  cases h with
  | scalar hv => exact hv

theorem Expr.within_of_ofTree {t : Tree} {e : Expr} (ht : t.Finite) (h : ofTree t = .ok e) :
    e.Within .finite := by
  cases ofTree_eq_ok_iff.mp h with
  | malformed => exact .malformed
  | invalid => exact .invalid
  | nested hclean he =>
    have := hclean.sizeOf_only
    exact within_of_ofTree (hclean.finite_only ht) he
  | literal hclean => exact .literal (Tree.finite_of_scalar (hclean.finite_only ht))
  | parameter hclean => exact .parameter (Tree.finite_of_scalar (hclean.finite_only ht))
  | access => exact .access fun _ _ => trivial
  | call hclean hc _ _ hes =>
    refine .call (fun _ _ => trivial) fun e he => ?_
    obtain ⟨d, hd, hde⟩ := exists_mem_of_forall₂ hes he
    have hmem := mem_payloads.mp hd
    have := Nat.lt_trans (hc.sizeOf_lt hmem) hclean.sizeOf_only
    exact within_of_ofTree (hc.finite (hclean.finite_only ht) _ hmem) hde
  | builtIn hclean hc _ hes =>
    refine .builtIn fun e he => ?_
    obtain ⟨d, hd, hde⟩ := exists_mem_of_forall₂ hes he
    have hmem := mem_payloads.mp hd
    have := Nat.lt_trans (hc.sizeOf_lt hmem) hclean.sizeOf_only
    exact within_of_ofTree (hc.finite (hclean.finite_only ht) _ hmem) hde
termination_by sizeOf t

theorem Initializer.within_of_ofChild {c : Tag × Tree} {i : Initializer} (hc : c.2.Finite)
    (h : ofChild Expr.ofTree c = .ok i) : i.Within .finite := by
  rcases ofChild_eq_ok_iff.mp h with ⟨v, rfl, rfl⟩ | ⟨t, e, rfl, he, rfl⟩
  · exact Tree.finite_of_scalar hc
  · exact Expr.within_of_ofTree hc he

theorem Stmt.within_of_ofTree {tag : Tag} {t : Tree} {s : Stmt} (ht : t.Finite)
    (h : ofTree tag t = .ok s) : s.Within .finite := by
  cases ofTree_eq_ok_iff.mp h with
  | malformed => exact .malformed
  | invalid => exact .invalid
  | wrapped hclean hs =>
    have := hclean.sizeOf_only
    exact within_of_ofTree (hclean.finite_only ht) hs
  | functionDefinition hclean _ _ hbody =>
    refine .functionDefinition fun s hs => ?_
    obtain ⟨d, hd, hds⟩ := exists_mem_of_forall₂ hbody hs
    have hmem := (mem_without.mp hd).1
    have := hclean.sizeOf_lt hmem
    exact within_of_ofTree (hclean.finite ht d hmem) hds
  | conditional hclean hconditions hbody =>
    refine .conditional (fun e he => ?_) fun s hs => ?_
    · obtain ⟨d, hd, hde⟩ := exists_mem_of_forall₂ hconditions he
      exact Expr.within_of_ofTree (hclean.finite ht _ (mem_payloads.mp hd)) hde
    · obtain ⟨d, hd, hds⟩ := exists_mem_of_forall₂ hbody hs
      have hmem := (mem_without.mp hd).1
      have := hclean.sizeOf_lt hmem
      exact within_of_ofTree (hclean.finite ht d hmem) hds
  | returns he => exact .returns (Expr.within_of_ofTree ht he)
  | declaration hclean _ hvalue =>
    refine .declaration fun i hi => ?_
    obtain ⟨d, hd, hdi⟩ := exists_mem_of_forall₂ hvalue (Option.mem_toList.mpr hi)
    exact Initializer.within_of_ofChild (hclean.finite ht d (mem_without.mp hd).1) hdi
  | expression he => exact .expression (Expr.within_of_ofTree ht he)
termination_by sizeOf t

/-- What stands at the top is the statement that it is read as. -/
theorem Item.within_of_ofTree {tag : Tag} {t : Tree} {item : Item} (ht : t.Finite)
    (h : ofTree tag t = .ok item) : item.Within .finite := by
  cases ofTree_eq_ok_iff.mp h with
  | functionDefinition hs =>
    cases Stmt.within_of_ofTree ht hs with
    | functionDefinition hbody => exact hbody
  | conditional hs =>
    cases Stmt.within_of_ofTree ht hs with
    | conditional hconditions hbody => exact ⟨hconditions, hbody⟩
  | returns hs =>
    cases Stmt.within_of_ofTree ht hs with
    | returns he => exact he
  | invalid => exact trivial

/-- A program that is read from a document with finite scalars has finite literals. -/
theorem Program.within_of_ofTree {t : Tree} {p : Program} (ht : t.Finite)
    (h : ofTree t = .ok p) : p.Within .finite := by
  obtain ⟨payload, cs, rfl, hclean, hitems⟩ := ofTree_eq_ok_iff.mp h
  have hpayload : payload.Finite := by
    cases ht with
    | object h => exact h _ List.mem_cons_self
  intro item hitem
  obtain ⟨c, hc, hci⟩ := exists_mem_of_forall₂ hitems hitem
  exact Item.within_of_ofTree (hclean.finite hpayload c hc) hci

/-! ## Runs -/

/-- An expression with a finite value is equal to itself. -/
theorem evaluate_equality_self {c : Context} (hc : c.Aligned) {e : Expr} {v : Value}
    (hv : v.Finite) (h : Lexical.evaluate c.caller c.chain e = .ok v) (log : Array Event) :
    ∃ log', (Expr.builtIn [.equality] [e, e]).evaluate ⟨c, log⟩ =
      .ok (.ok (.boolean true), ⟨c, log'⟩) := by
  obtain ⟨log', hequal⟩ := evaluate_yields hc (.builtIn [.equality] [e, e]) log
  have hresult : Lexical.evaluate c.caller c.chain (.builtIn [.equality] [e, e]) =
      .ok (.boolean true) := by
    simp only [Lexical.evaluate, h]
    exact congrArg (fun b => Except.ok (Value.boolean b)) hv.beq_self
  exact ⟨log', hresult ▸ hequal⟩

/-- Only finite numbers circulate. If the values and the stored bodies of a context are finite
    and so is the text, then a value that is returned is finite, and the values and bodies that
    are left are, also after an error. An expression that has a value is then equal to itself. A
    program that is read from a document with finite scalars is such a text. -/
theorem only_finite_numbers_circulate (c : Context) (hc : c.Mirrored) (hfinite : c.Within .finite)
    (log : Array Event) :
    (∀ n : Node, n.Within .finite → ∃ result s, n.run ⟨c, log⟩ = .ok (result, s) ∧
      (∀ v, result = .ok (some v) → v.Finite) ∧
      (∀ i x v, s.context.variables.get? i x = some v → v.Finite) ∧
      s.context.Within .finite) ∧
    (∀ (e : Expr) (v : Value) (s : Session), e.Within .finite →
      e.evaluate ⟨c, log⟩ = .ok (.ok v, s) → s.context = c ∧
        ∀ log', ∃ log'', (Expr.builtIn [.equality] [e, e]).evaluate ⟨c, log'⟩ =
          .ok (.ok (.boolean true), ⟨c, log''⟩)) ∧
    (∀ (t : Tree) (p : Program), t.Finite → Program.ofTree t = .ok p → p.Within .finite) := by
  have haligned := hc.toAligned
  refine ⟨fun n hn => ?_, fun e v s he hrun => ?_, fun t p => Program.within_of_ofTree⟩
  · obtain ⟨result, s, s', hrun, -, hvalue, -, hleft⟩ :=
      Usage.same_run haligned haligned (.refl _ c) hfinite hn log log
    exact ⟨result, s, hrun, hvalue, fun i x v => hleft.holds i x v trivial, hleft⟩
  · obtain ⟨log₁, heval⟩ := evaluate_yields haligned e log
    rw [heval, Except.ok.injEq, Prod.mk.injEq] at hrun
    obtain ⟨hv, rfl⟩ := hrun
    have hcaller := Lexical.same_caller .finite c.limits.maxCallDepth c.headroom
    have hsame := Lexical.same_evaluate hcaller
      (Context.Agrees.chain haligned (.refl _ c) hfinite) e he
    exact ⟨rfl, evaluate_equality_self haligned (hsame.holds hv) hv⟩

/-- The greatest of the floats that are finite. -/
def Number.greatest : Number :=
  .float (Float.ofBits 0x7fefffffffffffff)

/-- Binds the greatest number, and adds it to itself. -/
def sampleOverflow : Node :=
  .block [
    .declaration (some "x") (some (.literal (.number .greatest))),
    .returns (.builtIn [.plus] [.access (some "x"), .access (some "x")])]

/-- The sum does not exist. What was bound before it is left, and is finite. -/
theorem only_finite_numbers_circulate_sampleOverflow :
    (Context.new ⟨4⟩).Mirrored ∧
      (∃ s, sampleOverflow.run ⟨.new ⟨4⟩, #[]⟩ =
          .ok (.error (.sumOverflows .greatest .greatest), s) ∧
        s.context.variables.get? Store.root "x" = some (.number .greatest) ∧
        Number.greatest.Finite) ∧
      ∃ log, (Expr.builtIn [.equality] [.literal (.number .greatest),
        .literal (.number .greatest)]).evaluate ⟨.new ⟨4⟩, #[]⟩ =
          .ok (.ok (.boolean true), ⟨.new ⟨4⟩, log⟩) := by
  have hnew := Context.mirrored_new ⟨4⟩
  have hgreatest : Number.greatest.Finite := ⟨rfl, rfl⟩
  have hliteral : (Expr.literal (.number .greatest)).Within .finite := .literal hgreatest
  have haccess : (Expr.access (some "x")).Within .finite := .access fun _ _ => trivial
  have hnode : sampleOverflow.Within .finite := by
    intro s hs
    simp only [List.mem_cons, List.not_mem_nil, or_false] at hs
    rcases hs with rfl | rfl
    · refine .declaration ?_
      rintro i ⟨⟩
      exact hgreatest
    · refine .returns (.builtIn fun e he => ?_)
      simp only [List.mem_cons, List.not_mem_nil, or_false, or_self] at he
      exact he ▸ haccess
  obtain ⟨hruns, hequal, -⟩ :=
    only_finite_numbers_circulate (.new ⟨4⟩) hnew (Context.within_new _ ⟨4⟩) #[]
  obtain ⟨result, s, hrun, -, hleft, -⟩ := hruns sampleOverflow hnode
  obtain ⟨log, hends⟩ := sampleOverflow.run_endsIn hnew.toAligned #[]
  rw [Context.ending, Context.chain_new] at hends
  cases hrun.symm.trans hends
  have hx : ((Context.new ⟨4⟩).withFrame (Lexical.run (Context.new ⟨4⟩).caller .root
      sampleOverflow).2).variables.get? Store.root "x" = some (.number .greatest) :=
    hnew.get?_variables_withFrame _ "x"
  refine ⟨hnew, ⟨_, hrun, hx, hleft _ _ _ hx⟩, ?_⟩
  exact (hequal _ _ _ hliteral rfl).2 #[]

end TreeWalk
