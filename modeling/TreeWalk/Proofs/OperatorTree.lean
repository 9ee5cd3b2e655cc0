-- SUMMARY: Trees of operators compute with unbounded integers that are checked at every node.
import TreeWalk.Proofs.IntegerToken
import TreeWalk.Proofs.Reading
import TreeWalk.Proofs.Sessions

/-! # Trees of operators

An expression of literals and built-in operators has a value that no context has a part in: that of
the same tree over the integers, as long as every sum and every difference on the way is an integer
of 64 bits and every operator is given what it takes. It does not matter whether the whole would fit
after all. Where a node goes wrong, the first one to do so decides the error, and first is meant in
the order in which the nodes are written when each stands behind its operands.
-/

namespace TreeWalk

/-! ## Data -/

/-- What a value without floats says, with integers of any size. -/
inductive Datum where
  | integer (n : Int)
  | string (s : String)
  | boolean (b : Bool)
  deriving DecidableEq

namespace Datum

/-- There is a value that says this: an integer has to be one of 64 bits. -/
def Fits : Datum → Prop
  | integer n => -2 ^ 63 ≤ n ∧ n < 2 ^ 63
  | string _ | boolean _ => True

instance : (d : Datum) → Decidable d.Fits
  | integer n => inferInstanceAs (Decidable (-2 ^ 63 ≤ n ∧ n < 2 ^ 63))
  | string _ | boolean _ => inferInstanceAs (Decidable True)

/-- The number of an integer that fits. -/
def number (n : Int) : Number :=
  .integer (Int64.ofInt n)

/-- The value of a datum that fits. -/
def value : Datum → Value
  | integer n => .number (number n)
  | string s => .string s
  | boolean b => .boolean b

end Datum

/-! ## Operators on data -/

namespace Operator

/-- The exact result of an operator. There is none for operands that the operator
    does not take. -/
def exact : Operator → Datum → Datum → Option Datum
  | equality, a, b => some (.boolean (decide (a = b)))
  | plus, .integer a, .integer b => some (.integer (a + b))
  | plus, .string a, .string b => some (.string (a ++ b))
  | minus, .integer a, .integer b => some (.integer (a - b))
  | plus, _, _ | minus, _, _ => none

/-- The error of an operator whose operands fit, but not its result, or which
    does not take its operands. -/
def fault : Operator → Datum → Datum → RunError
  | plus, .integer a, .integer b => .sumOverflows (Datum.number a) (Datum.number b)
  | minus, .integer a, .integer b => .differenceOverflows (Datum.number a) (Datum.number b)
  | minus, .integer _, b => .notANumber b.value
  | minus, a, _ => .notANumber a.value
  | _, a, b => .cannotAdd a.value b.value

/-- The result of an operator, if there is one and it fits. -/
def checked (operator : Operator) (a b : Datum) : Except RunError Datum :=
  match operator.exact a b with
  | some d => if d.Fits then .ok d else .error (operator.fault a b)
  | none => .error (operator.fault a b)

end Operator

/-! ## Trees -/

/-- An expression of literals and of built-in nodes with one operator and two
    operands. -/
inductive OperatorTree where
  | literal (d : Datum) (hd : d.Fits)
  | parameter (d : Datum) (hd : d.Fits)
  | operation (operator : Operator) (left right : OperatorTree)

namespace OperatorTree

def toExpr : OperatorTree → Expr
  | literal d _ => .literal d.value
  | parameter d _ => .parameter d.value
  | operation operator left right => .builtIn [operator] [left.toExpr, right.toExpr]

/-- The value over unbounded integers, without any check. -/
def exact : OperatorTree → Option Datum
  | literal d _ | parameter d _ => some d
  | operation operator left right => do operator.exact (← left.exact) (← right.exact)

/-- The value over unbounded integers, with a check at every node. -/
def denote : OperatorTree → Except RunError Datum
  | literal d _ | parameter d _ => .ok d
  | operation operator left right => do operator.checked (← left.denote) (← right.denote)

/-- The inner nodes, every one behind those below it and the left ones first. -/
def operations : OperatorTree → List OperatorTree
  | literal _ _ | parameter _ _ => []
  | operation operator left right =>
      left.operations ++ right.operations ++ [operation operator left right]

/-- A node whose exact result does not fit, or whose operator does not take its
    operands. -/
inductive Faulty : OperatorTree → Prop
  | outOfRange {operator : Operator} {left right : OperatorTree} {a b d : Datum}
      (ha : left.exact = some a) (hb : right.exact = some b) (hd : operator.exact a b = some d)
      (hrange : ¬ d.Fits) : Faulty (operation operator left right)
  | rejected {operator : Operator} {left right : OperatorTree} {a b : Datum}
      (ha : left.exact = some a) (hb : right.exact = some b) (hreject : operator.exact a b = none) :
      Faulty (operation operator left right)

/-- The error of a node itself. -/
def fault? : OperatorTree → Option RunError
  | literal _ _ | parameter _ _ => none
  | operation operator left right => do
      match operator.checked (← left.exact) (← right.exact) with
      | .ok _ => none
      | .error cause => some cause

end OperatorTree

/-! ## Operators on values -/

namespace Datum

theorem toInt_of_fits {n : Int} (h : (integer n).Fits) : (Int64.ofInt n).toInt = n :=
  Int64.toInt_ofInt_of_le h.1 h.2

/-- The values that data have are all values but floats. -/
theorem exists_value_iff {v : Value} :
    (∃ d : Datum, d.Fits ∧ d.value = v) ↔ ∀ x, v ≠ .number (.float x) := by
  constructor
  · rintro ⟨d, -, rfl⟩ x
    cases d <;> exact nofun
  · intro hv
    match v with
    | .number (.integer n) =>
      refine ⟨.integer n.toInt, ⟨n.le_toInt, n.toInt_lt⟩, ?_⟩
      rw [value, number, Int64.ofInt_toInt]
    | .number (.float x) => exact absurd rfl (hv x)
    | .string s => exact ⟨.string s, trivial, rfl⟩
    | .boolean b => exact ⟨.boolean b, trivial, rfl⟩

/-- Data that fit are told apart by their values. -/
theorem value_beq : {a b : Datum} → a.Fits → b.Fits → (a.value == b.value) = decide (a = b)
  | integer m, integer n, hm, hn => by
    have hinjective : Int64.ofInt m = Int64.ofInt n ↔ m = n := by
      rw [← Int64.toInt_inj, toInt_of_fits hm, toInt_of_fits hn]
    change (Int64.ofInt m == Int64.ofInt n) = _
    rw [Bool.eq_iff_iff]
    simp [hinjective]
  | string s, string t, _, _ => by
    change (s == t) = _
    rw [Bool.eq_iff_iff]
    simp
  | boolean p, boolean q, _, _ => by
    change (p == q) = _
    rw [Bool.eq_iff_iff]
    simp
  | integer _, string _, _, _ | integer _, boolean _, _, _ | string _, integer _, _, _
  | string _, boolean _, _, _ | boolean _, integer _, _, _ | boolean _, string _, _, _ => rfl

/-- What becomes of the exact result of a sum or a difference. -/
theorem settle_int64? (n : Int) (cause : RunError) :
    (match (int64? n).map Number.integer with
      | some k => (.ok k : Except RunError Number)
      | none => .error cause) =
      if (integer n).Fits then .ok (number n) else .error cause := by
  by_cases h : (integer n).Fits
  · obtain ⟨k, rfl, hk⟩ := int64?_of_mem h.1 h.2
    simp [hk, h, number]
  · have hnone : int64? n = none := int64?_of_not_mem (by simp only [Fits] at h; omega)
    simp [hnone, h]

theorem number_add {m n : Int} (hm : (integer m).Fits) (hn : (integer n).Fits) :
    (number m).add (number n) =
      if (integer (m + n)).Fits then .ok (number (m + n))
      else .error (.sumOverflows (number m) (number n)) := by
  have hsum : (number m).add? (number n) = (int64? (m + n)).map .integer := by
    rw [number, number, Number.add?, toInt_of_fits hm, toInt_of_fits hn]
  rw [Number.add, hsum]
  exact settle_int64? (m + n) _

theorem number_sub {m n : Int} (hm : (integer m).Fits) (hn : (integer n).Fits) :
    (number m).sub (number n) =
      if (integer (m - n)).Fits then .ok (number (m - n))
      else .error (.differenceOverflows (number m) (number n)) := by
  have hdifference : (number m).sub? (number n) = (int64? (m - n)).map .integer := by
    rw [number, number, Number.sub?, toInt_of_fits hm, toInt_of_fits hn]
  rw [Number.sub, hdifference]
  exact settle_int64? (m - n) _

end Datum

theorem Operator.apply_value {operator : Operator} {a b : Datum} (ha : a.Fits) (hb : b.Fits) :
    operator.apply a.value b.value = (operator.checked a b).map Datum.value := by
  match operator, a, b, ha, hb with
  | equality, a, b, ha, hb =>
    exact congrArg (fun p => Except.ok (Value.boolean p)) (Datum.value_beq ha hb)
  | plus, .integer m, .integer n, hm, hn =>
    change ((Datum.number m).add (Datum.number n)).map Value.number = _
    rw [Datum.number_add hm hn, checked, exact]
    simp only
    split <;> rfl
  | minus, .integer m, .integer n, hm, hn =>
    change ((Datum.number m).sub (Datum.number n) >>= fun k => .ok (Value.number k)) = _
    rw [Datum.number_sub hm hn, checked, exact]
    simp only
    split <;> rfl
  | plus, .string _, .string _, _, _
  | plus, .integer _, .string _, _, _ | plus, .integer _, .boolean _, _, _
  | plus, .string _, .integer _, _, _ | plus, .string _, .boolean _, _, _
  | plus, .boolean _, _, _, _
  | minus, .integer _, .string _, _, _ | minus, .integer _, .boolean _, _, _
  | minus, .string _, _, _, _ | minus, .boolean _, _, _, _ => rfl

theorem Operator.checked_eq_ok_iff {operator : Operator} {a b d : Datum} :
    operator.checked a b = .ok d ↔ operator.exact a b = some d ∧ d.Fits := by
  unfold checked
  cases operator.exact a b with
  | none => simp
  | some e =>
    by_cases h : e.Fits
    · simp only [h, if_true, Except.ok.injEq, Option.some.injEq]
      exact ⟨fun he => ⟨he, he ▸ h⟩, And.left⟩
    · simp only [h, if_false, Option.some.injEq, reduceCtorEq, false_iff]
      rintro ⟨rfl, hd⟩
      exact h hd

theorem Operator.exists_checked_eq_error_iff {operator : Operator} {a b : Datum} :
    (∃ cause, operator.checked a b = .error cause) ↔
      operator.exact a b = none ∨ ∃ d, operator.exact a b = some d ∧ ¬ d.Fits := by
  unfold checked
  cases operator.exact a b with
  | none => simp
  | some d => by_cases h : d.Fits <;> simp [h]

theorem Operator.fault_of_checked {operator : Operator} {a b : Datum} {cause : RunError}
    (h : operator.checked a b = .error cause) : cause = operator.fault a b := by
  unfold checked at h
  split at h
  · split at h <;> cases h
    rfl
  · cases h
    rfl

theorem Operator.kind_fault (operator : Operator) (a b : Datum) :
    (operator.fault a b).kind = .invalidCalculation := by
  unfold fault
  split <;> rfl

/-! ## Trees on values -/

namespace OperatorTree

theorem fits_of_denote {t : OperatorTree} {d : Datum} (h : t.denote = .ok d) : d.Fits := by
  cases t with
  | literal e he | parameter e he => exact Except.ok.inj h ▸ he
  | operation operator left right =>
    obtain ⟨a, -, h⟩ := bind_eq_ok_iff.mp h
    obtain ⟨b, -, h⟩ := bind_eq_ok_iff.mp h
    exact (Operator.checked_eq_ok_iff.mp h).2

/-- Whatever calls are evaluated with, and in whatever state, evaluation gives what
    the tree denotes and changes nothing. -/
theorem evaluateWith_toExpr (invoke : Invoker) (s : Session) (t : OperatorTree) :
    t.toExpr.evaluateWith invoke s = .ok (t.denote.map Datum.value, s) := by
  induction t with
  | literal d hd | parameter d hd => rfl
  | operation operator left right ihl ihr =>
    rw [toExpr, Expr.evaluateWith, denote]
    cases hl : left.denote with
    | error cause =>
      rw [hl] at ihl
      exact Action.bind_of_error ihl
    | ok a =>
      rw [hl] at ihl
      rw [Action.bind_of_ok ihl]
      cases hr : right.denote with
      | error cause =>
        rw [hr] at ihr
        exact Action.bind_of_error ihr
      | ok b =>
        rw [hr] at ihr
        rw [Action.bind_of_ok ihr, Operator.apply_value (fits_of_denote hl) (fits_of_denote hr)]
        rfl

/-! ## The first fault -/

theorem faulty_operation_iff {operator : Operator} {left right : OperatorTree} :
    (operation operator left right).Faulty ↔
      ∃ a b, left.exact = some a ∧ right.exact = some b ∧
        ∃ cause, operator.checked a b = .error cause := by
  constructor
  · intro h
    cases h with
    | outOfRange ha hb hd hrange =>
      exact ⟨_, _, ha, hb, Operator.exists_checked_eq_error_iff.mpr (.inr ⟨_, hd, hrange⟩)⟩
    | rejected ha hb hreject =>
      exact ⟨_, _, ha, hb, Operator.exists_checked_eq_error_iff.mpr (.inl hreject)⟩
  · rintro ⟨a, b, ha, hb, hcause⟩
    rcases Operator.exists_checked_eq_error_iff.mp hcause with hreject | ⟨d, hd, hrange⟩
    · exact .rejected ha hb hreject
    · exact .outOfRange ha hb hd hrange

/-- A node has an error of its own exactly if it is faulty. -/
theorem fault?_eq_none_iff {t : OperatorTree} : t.fault? = none ↔ ¬ t.Faulty := by
  cases t with
  | literal d hd | parameter d hd => exact iff_of_true rfl nofun
  | operation operator left right =>
    rw [faulty_operation_iff, fault?]
    cases left.exact with
    | none => simp
    | some a =>
      cases right.exact with
      | none => simp
      | some b => cases h : operator.checked a b <;> simp [h]

theorem faulty_of_fault? {t : OperatorTree} {cause : RunError} (h : t.fault? = some cause) :
    t.Faulty :=
  Classical.not_not.mp fun hsound => by cases h.symm.trans (fault?_eq_none_iff.mpr hsound)

theorem kind_of_fault? {t : OperatorTree} {cause : RunError} (h : t.fault? = some cause) :
    cause.kind = .invalidCalculation := by
  cases t with
  | literal d hd | parameter d hd => cases h
  | operation operator left right =>
    obtain ⟨a, -, h⟩ := Option.bind_eq_some_iff.mp h
    obtain ⟨b, -, h⟩ := Option.bind_eq_some_iff.mp h
    cases hchecked : operator.checked a b with
    | ok d => simp [hchecked] at h
    | error cause' =>
      simp only [hchecked, Option.some.injEq] at h
      exact h ▸ Operator.fault_of_checked hchecked ▸ operator.kind_fault a b

/-- The tree denotes its exact value if no node has an error of its own, and otherwise the
    first of these errors. -/
theorem denote_cases (t : OperatorTree) :
    (∃ d, t.denote = .ok d ∧ t.exact = some d ∧ t.operations.findSome? fault? = none) ∨
      ∃ cause, t.denote = .error cause ∧ t.operations.findSome? fault? = some cause := by
  induction t with
  | literal d hd | parameter d hd => exact .inl ⟨d, rfl, rfl, rfl⟩
  | operation operator left right ihl ihr =>
    simp only [operations, List.findSome?_append]
    rcases ihl with ⟨a, hl, hexactl, hfirstl⟩ | ⟨cause, hl, hfirst⟩
    · rcases ihr with ⟨b, hr, hexactr, hfirstr⟩ | ⟨cause, hr, hfirst⟩
      · have hdenote : (operation operator left right).denote = operator.checked a b := by
          rw [denote, hl, hr]
          rfl
        rw [hdenote, hfirstl, hfirstr]
        cases h : operator.checked a b with
        | ok d =>
          obtain ⟨hexact, -⟩ := Operator.checked_eq_ok_iff.mp h
          simp [exact, hexactl, hexactr, hexact, fault?, h]
        | error cause => simp [hexactl, hexactr, fault?, h]
      · refine .inr ⟨cause, ?_, ?_⟩
        · rw [denote, hl, hr]
          rfl
        · simp [hfirstl, hfirst]
    · refine .inr ⟨cause, ?_, ?_⟩
      · rw [denote, hl]
        rfl
      · simp [hfirst]

theorem findSome?_fault?_eq_none_iff {t : OperatorTree} :
    t.operations.findSome? fault? = none ↔ ∀ n ∈ t.operations, ¬ n.Faulty := by
  simp only [List.findSome?_eq_none_iff, fault?_eq_none_iff]

theorem denote_eq_ok_iff {t : OperatorTree} {d : Datum} :
    t.denote = .ok d ↔ d.Fits ∧ t.exact = some d ∧ ∀ n ∈ t.operations, ¬ n.Faulty := by
  rcases t.denote_cases with ⟨e, hdenote, hexact, hfirst⟩ | ⟨cause, hdenote, hfirst⟩
  · have hsound := findSome?_fault?_eq_none_iff.mp hfirst
    rw [hdenote, hexact]
    constructor
    · rintro ⟨⟩
      exact ⟨fits_of_denote hdenote, rfl, hsound⟩
    · rintro ⟨-, ⟨⟩, -⟩
      rfl
  · rw [hdenote, ← findSome?_fault?_eq_none_iff, hfirst]
    exact iff_of_false nofun nofun

theorem denote_eq_error_iff_findSome? {t : OperatorTree} {cause : RunError} :
    t.denote = .error cause ↔ t.operations.findSome? fault? = some cause := by
  rcases t.denote_cases with ⟨d, hdenote, -, hfirst⟩ | ⟨cause', hdenote, hfirst⟩
  · rw [hdenote, hfirst]
    exact iff_of_false nofun nofun
  · rw [hdenote, hfirst, Except.error.injEq, Option.some.injEq]

theorem denote_eq_error_iff {t : OperatorTree} {cause : RunError} :
    t.denote = .error cause ↔ cause.kind = .invalidCalculation ∧
      ∃ before n after, t.operations = before ++ n :: after ∧ (∀ m ∈ before, ¬ m.Faulty) ∧
        n.Faulty ∧ n.fault? = some cause := by
  rw [denote_eq_error_iff_findSome?, List.findSome?_eq_some_iff]
  constructor
  · rintro ⟨before, n, after, hoperations, hfault, hbefore⟩
    exact ⟨kind_of_fault? hfault, before, n, after, hoperations,
      fun m hm => fault?_eq_none_iff.mp (hbefore m hm), faulty_of_fault? hfault, hfault⟩
  · rintro ⟨-, before, n, after, hoperations, hbefore, -, hfault⟩
    exact ⟨before, n, after, hoperations, hfault,
      fun m hm => fault?_eq_none_iff.mpr (hbefore m hm)⟩

theorem exists_denote_eq_error_iff {t : OperatorTree} :
    (∃ cause, t.denote = .error cause) ↔ ∃ n ∈ t.operations, n.Faulty := by
  simp only [denote_eq_error_iff_findSome?, ← Option.ne_none_iff_exists', ne_eq,
    findSome?_fault?_eq_none_iff, not_forall, not_not, exists_prop]

end OperatorTree

/-- Evaluating a tree of operators gives what the tree denotes, in every state, and
    changes nothing. The tree denotes its exact value if that fits and no node is
    faulty. Otherwise it denotes the error of the first faulty node, in the order in
    which nodes stand behind their operands, and that error is one of calculation. The
    leaves of such trees are all values that are not floats. -/
theorem operator_trees_compute_exactly (t : OperatorTree) :
    (∀ s, t.toExpr.evaluate s = .ok (t.denote.map Datum.value, s)) ∧
    (∀ d, t.denote = .ok d ↔ d.Fits ∧ t.exact = some d ∧ ∀ n ∈ t.operations, ¬ n.Faulty) ∧
    (∀ cause, t.denote = .error cause ↔ cause.kind = .invalidCalculation ∧
      ∃ before n after, t.operations = before ++ n :: after ∧ (∀ m ∈ before, ¬ m.Faulty) ∧
        n.Faulty ∧ n.fault? = some cause) ∧
    ((∃ cause, t.denote = .error cause) ↔ ∃ n ∈ t.operations, n.Faulty) ∧
    (∀ v : Value, (∃ d : Datum, d.Fits ∧ d.value = v) ↔ ∀ x, v ≠ .number (.float x)) := by
  refine ⟨fun s => OperatorTree.evaluateWith_toExpr _ s t, ?_, ?_, ?_, ?_⟩
  · intro d
    exact OperatorTree.denote_eq_ok_iff
  · intro cause
    exact OperatorTree.denote_eq_error_iff
  · exact OperatorTree.exists_denote_eq_error_iff
  · intro v
    exact Datum.exists_value_iff

/-- The sum overflows, although the difference from it would fit again. -/
example :
    let one : OperatorTree := .literal (.integer 1) (by decide)
    let greatest : OperatorTree := .literal (.integer (2 ^ 63 - 1)) (by decide)
    let t : OperatorTree := .operation .minus (.operation .plus greatest one) one
    t.exact = some (.integer (2 ^ 63 - 1)) ∧
      t.denote = .error (.sumOverflows (Datum.number (2 ^ 63 - 1)) (Datum.number 1)) :=
  ⟨rfl, rfl⟩

end TreeWalk
