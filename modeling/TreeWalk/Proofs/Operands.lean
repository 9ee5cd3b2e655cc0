-- SUMMARY: The order of the operands of a comparison or a sum, and why it decides no value.
import TreeWalk.Proofs.Equality
import TreeWalk.Proofs.Reading
import TreeWalk.Proofs.Simulation

/-! # Order of operands

Operands are evaluated from left to right. An operand leaves the context as it is, so the other
one comes to the same result whether it is evaluated before or after it, and the order decides
only which of two errors is reported (`Lexical.evaluate_operands_cases`). What is left to see is
that equal values are equal either way round, and that a sum is.

Sums of floats are rounded, and rounding is no obstacle: the exact sum of the mantissas on a common
exponent is the same in both orders, and that is what is rounded. Differences are left out, because
one of them may overflow while the other one does not.
-/

namespace TreeWalk

/-! ## Values -/

section Floats

open Float.Model Float.Model.UnpackedFloat

theorem unpacked_add_comm (format : Format) (x y : UnpackedFloat) :
    UnpackedFloat.add format x y = UnpackedFloat.add format y x := by
  cases x with
  | notANumber => cases y <;> rfl
  | infinity s =>
    cases y with
    | infinity t => cases s <;> cases t <;> rfl
    | notANumber | zero t | finite t n e hn => rfl
  | zero s =>
    cases y with
    | zero t => cases s <;> cases t <;> rfl
    | notANumber | infinity t | finite t n e hn => rfl
  | finite s m d hm =>
    cases y with
    | notANumber | infinity t | zero t => rfl
    | finite t n e hn =>
      -- both mantissas are brought to the smaller exponent before they are added
      simp only [UnpackedFloat.add]
      rw [Int.min_comm, Int.add_comm]

theorem float_add_comm (x y : Float) : x + y = y + x := by
  have hunpacked := unpacked_add_comm Format.binary64 x.toModel.unpack y.toModel.unpack
  exact congrArg (fun sum => Float.ofModel (Float.Model.pack sum)) hunpacked

end Floats

namespace Number

theorem add?_comm : (l r : Number) → l.add? r = r.add? l
  | integer l, integer r => by rw [add?, add?, Int.add_comm]
  | integer _, float _ | float _, integer _ | float _, float _ => by
    rw [add?, add?, float_add_comm] <;> exact nofun

/-- The sum in both orders is one number, or overflows in both. -/
theorem add_cases (l r : Number) :
    (∃ sum, l.add r = .ok sum ∧ r.add l = .ok sum) ∨
      l.add r = .error (.sumOverflows l r) ∧ r.add l = .error (.sumOverflows r l) := by
  rw [add, add, add?_comm r l]
  cases l.add? r with
  | some sum => exact .inl ⟨sum, rfl, rfl⟩
  | none => exact .inr ⟨rfl, rfl⟩

end Number

namespace Operator

theorem apply_equality_comm (l r : Value) : equality.apply l r = equality.apply r l :=
  congrArg (fun equal => Except.ok (Value.boolean equal)) (l.beq_comm r)

theorem apply_plus_cases (m n : Number) :
    (∃ v, plus.apply (.number m) (.number n) = .ok v ∧
      plus.apply (.number n) (.number m) = .ok v) ∨
    plus.apply (.number m) (.number n) = .error (.sumOverflows m n) ∧
      plus.apply (.number n) (.number m) = .error (.sumOverflows n m) := by
  simp only [apply]
  rcases m.add_cases n with ⟨sum, hsum, hswapped⟩ | ⟨hsum, hswapped⟩
  · rw [hsum, hswapped]
    exact .inl ⟨.number sum, rfl, rfl⟩
  · rw [hsum, hswapped]
    exact .inr ⟨rfl, rfl⟩

/-- Strings that are joined give another string the other way round, but they do give one. -/
theorem apply_fails_iff {operator : Operator} (hoperator : operator ≠ .minus) (l r : Value) :
    (∃ cause, operator.apply l r = .error cause) ↔ ∃ cause, operator.apply r l = .error cause := by
  match operator, l, r with
  | .minus, _, _ => exact absurd rfl hoperator
  | .equality, l, r => rw [apply_equality_comm]
  | .plus, .number m, .number n =>
    rcases apply_plus_cases m n with ⟨v, hsum, hswapped⟩ | ⟨hsum, hswapped⟩
    · rw [hsum, hswapped]
    · exact iff_of_true ⟨_, hsum⟩ ⟨_, hswapped⟩
  | .plus, .string l, .string r => exact iff_of_false nofun nofun
  | .plus, .number _, .string _ | .plus, .number _, .boolean _ | .plus, .string _, .number _
  | .plus, .string _, .boolean _ | .plus, .boolean _, .number _ | .plus, .boolean _, .string _
  | .plus, .boolean _, .boolean _ => exact iff_of_true ⟨_, rfl⟩ ⟨_, rfl⟩

/-- Of differences this is not true: zero can be taken from the least integer, but not the other
    way round. -/
example :
    let zero := Value.number (.integer 0)
    let least := Value.number (.integer Int64.minValue)
    minus.apply least zero = .ok least ∧ ∃ cause, minus.apply zero least = .error cause :=
  ⟨rfl, _, rfl⟩

end Operator

/-! ## Expressions -/

namespace Lexical

variable {caller : Caller} {chain : Chain} {a b : Expr} {l r : Value}

theorem evaluate_of_operands (operator : Operator) (ha : evaluate caller chain a = .ok l)
    (hb : evaluate caller chain b = .ok r) :
    evaluate caller chain (.builtIn [operator] [a, b]) = operator.apply l r := by
  rw [evaluate, ha, hb]
  rfl

/-- If both operands have values, these are what the operator is applied to in either order. If
    not, neither order gets as far as the operator. -/
theorem evaluate_operands_cases (caller : Caller) (chain : Chain) (operator : Operator)
    (a b : Expr) :
    (∃ l r, evaluate caller chain a = .ok l ∧ evaluate caller chain b = .ok r ∧
      evaluate caller chain (.builtIn [operator] [a, b]) = operator.apply l r ∧
      evaluate caller chain (.builtIn [operator] [b, a]) = operator.apply r l) ∨
    (∃ cause, evaluate caller chain (.builtIn [operator] [a, b]) = .error cause) ∧
      ∃ cause, evaluate caller chain (.builtIn [operator] [b, a]) = .error cause := by
  cases ha : evaluate caller chain a with
  | error cause =>
    right
    rw [evaluate, evaluate, ha]
    cases evaluate caller chain b with
    | error cause' => exact ⟨⟨cause, rfl⟩, cause', rfl⟩
    | ok r => exact ⟨⟨cause, rfl⟩, cause, rfl⟩
  | ok l =>
    cases hb : evaluate caller chain b with
    | error cause =>
      right
      rw [evaluate, evaluate, ha, hb]
      exact ⟨⟨cause, rfl⟩, cause, rfl⟩
    | ok r =>
      have hfirst := evaluate_of_operands operator ha hb
      exact .inl ⟨l, r, rfl, rfl, hfirst, evaluate_of_operands operator hb ha⟩

theorem evaluate_fails_iff (caller : Caller) (chain : Chain) {operator : Operator}
    (hoperator : operator ≠ .minus) (a b : Expr) :
    (∃ cause, evaluate caller chain (.builtIn [operator] [a, b]) = .error cause) ↔
      ∃ cause, evaluate caller chain (.builtIn [operator] [b, a]) = .error cause := by
  rcases evaluate_operands_cases caller chain operator a b with
    ⟨l, r, -, -, h, hswapped⟩ | ⟨h, hswapped⟩
  · rw [h, hswapped]
    exact Operator.apply_fails_iff hoperator l r
  · exact iff_of_true h hswapped

theorem evaluate_equality_iff (caller : Caller) (chain : Chain) (a b : Expr) (v : Value) :
    evaluate caller chain (.builtIn [.equality] [a, b]) = .ok v ↔
      evaluate caller chain (.builtIn [.equality] [b, a]) = .ok v := by
  rcases evaluate_operands_cases caller chain .equality a b with
    ⟨l, r, -, -, h, hswapped⟩ | ⟨⟨cause, h⟩, cause', hswapped⟩
  · rw [h, hswapped, Operator.apply_equality_comm]
  · rw [h, hswapped]
    exact iff_of_false nofun nofun

end Lexical

/-! ## Runs -/

/-- Whatever has been recorded before, a run of an expression comes to what lexical evaluation
    gives. -/
theorem exists_evaluate_iff {c : Context} (hc : c.Aligned) (log : Array Event) {e : Expr}
    {result : Except RunError Value} :
    (∃ s, e.evaluate ⟨c, log⟩ = .ok (result, s)) ↔
      Lexical.evaluate c.caller c.chain e = result := by
  constructor
  · rintro ⟨s, hrun⟩
    exact (Action.Yields.of_run (s := ⟨c, log⟩) (evaluate_yields hc e) hrun).1.symm
  · rintro rfl
    obtain ⟨log', hrun⟩ := evaluate_yields hc e log
    exact ⟨_, hrun⟩

/-- In both orders a comparison or a sum leaves the context as it is, and if one order fails, so
    does the other. Comparing gives the same value in both orders, and so does adding numbers,
    unless the sum overflows in both. -/
theorem operands_commute (c : Context) (hc : c.Mirrored) (log log' : Array Event) (a b : Expr) :
    (∀ operator, operator ≠ .minus → ∃ result result' log₁ log₁',
      (Expr.builtIn [operator] [a, b]).evaluate ⟨c, log⟩ = .ok (result, ⟨c, log₁⟩) ∧
      (Expr.builtIn [operator] [b, a]).evaluate ⟨c, log'⟩ = .ok (result', ⟨c, log₁'⟩) ∧
      ((∃ cause, result = .error cause) ↔ ∃ cause, result' = .error cause)) ∧
    (∀ v, (∃ s, (Expr.builtIn [.equality] [a, b]).evaluate ⟨c, log⟩ = .ok (.ok v, s)) ↔
      ∃ s, (Expr.builtIn [.equality] [b, a]).evaluate ⟨c, log'⟩ = .ok (.ok v, s)) ∧
    (∀ m n s₁ s₂, a.evaluate ⟨c, log⟩ = .ok (.ok (.number m), s₁) →
      b.evaluate ⟨c, log⟩ = .ok (.ok (.number n), s₂) → ∃ result result' s s',
        (Expr.builtIn [.plus] [a, b]).evaluate ⟨c, log⟩ = .ok (result, s) ∧
        (Expr.builtIn [.plus] [b, a]).evaluate ⟨c, log'⟩ = .ok (result', s') ∧
        ((∃ v, result = .ok v ∧ result' = .ok v) ∨
          ∃ cause cause', result = .error cause ∧ result' = .error cause' ∧
            cause.kind = .invalidCalculation ∧ cause'.kind = .invalidCalculation)) := by
  have haligned := hc.toAligned
  refine ⟨?_, ?_, ?_⟩
  · intro operator hoperator
    obtain ⟨log₁, hrun⟩ := evaluate_yields haligned (.builtIn [operator] [a, b]) log
    obtain ⟨log₁', hrun'⟩ := evaluate_yields haligned (.builtIn [operator] [b, a]) log'
    exact ⟨_, _, log₁, log₁', hrun, hrun', Lexical.evaluate_fails_iff _ _ hoperator a b⟩
  · intro v
    rw [exists_evaluate_iff haligned log, exists_evaluate_iff haligned log']
    exact Lexical.evaluate_equality_iff c.caller c.chain a b v
  · intro m n s₁ s₂ ha hb
    have ha := (exists_evaluate_iff haligned log).mp ⟨s₁, ha⟩
    have hb := (exists_evaluate_iff haligned log).mp ⟨s₂, hb⟩
    obtain ⟨s, hrun⟩ := (exists_evaluate_iff haligned log).mpr
      (Lexical.evaluate_of_operands .plus ha hb)
    obtain ⟨s', hrun'⟩ := (exists_evaluate_iff haligned log').mpr
      (Lexical.evaluate_of_operands .plus hb ha)
    refine ⟨_, _, s, s', hrun, hrun', ?_⟩
    rcases Operator.apply_plus_cases m n with hsame | ⟨hsum, hswapped⟩
    · exact .inl hsame
    · exact .inr ⟨_, _, hsum, hswapped, rfl, rfl⟩

/-! ### A frame with numbers

`next` binds its result to `y` before it returns it. The frame that calls it has a `y` too. -/

namespace Context

def sampleNext : Routine :=
  { name := "next"
    parameters := ["x"]
    body := [
      .declaration (some "y") (some (.expression
        (.builtIn [.plus] [.access (some "x"), .literal (.number (.integer 1))]))),
      .returns (.access (some "y"))] }

def sampleNumbers : Frame :=
  { owner := some "f"
    values := ⟨[("y", .number (.float 0.5))]⟩
    functions := ⟨[("next", sampleNext)]⟩ }

def sampleWithNumbers : Context :=
  sample.withFrame sampleNumbers

theorem mirrored_sampleWithNumbers : sampleWithNumbers.Mirrored := by
  refine mirrored_sample.withFrame fun entry hentry => ?_
  rcases List.mem_singleton.mp hentry with rfl
  rfl

theorem chain_sampleWithNumbers : sampleWithNumbers.chain = ⟨sampleNumbers, [sampleRoot]⟩ := by
  rw [sampleWithNumbers, mirrored_sample.toAligned.chain_withFrame, chain_sample]

end Context

/-- What an expression comes to there is computed on the chain of frames. -/
theorem exists_evaluate_sample (e : Expr) (result : Except RunError Value)
    (h : Lexical.evaluate Context.sampleWithNumbers.caller
      ⟨Context.sampleNumbers, [Context.sampleRoot]⟩ e = result) :
    ∃ s, e.evaluate ⟨.sampleWithNumbers, #[]⟩ = .ok (result, s) := by
  rw [← Context.chain_sampleWithNumbers] at h
  exact (exists_evaluate_iff Context.mirrored_sampleWithNumbers.toAligned #[]).mpr h

/-- The `y` of the call is not the one that the other operand reads, not even behind the call. A
    call that is too deep fails on either side of a variable that is not there. -/
theorem operands_commute_sample :
    Context.sampleWithNumbers.Mirrored ∧
      (∃ s s',
        (Expr.builtIn [.plus] [.call (some "next") [.literal (.number (.integer 2))],
          .access (some "y")]).evaluate ⟨.sampleWithNumbers, #[]⟩ =
            .ok (.ok (.number (.float 3.5)), s) ∧
        (Expr.builtIn [.plus] [.access (some "y"),
          .call (some "next") [.literal (.number (.integer 2))]]).evaluate
            ⟨.sampleWithNumbers, #[]⟩ = .ok (.ok (.number (.float 3.5)), s')) ∧
      (∃ s, (Expr.builtIn [.equality] [.call (some "loop") [], .access (some "z")]).evaluate
        ⟨.sampleWithNumbers, #[]⟩ = .ok (.error (.tooDeep "loop" 4), s)) ∧
      ∃ cause log, (Expr.builtIn [.equality] [.access (some "z"), .call (some "loop") []]).evaluate
        ⟨.sampleWithNumbers, #[]⟩ = .ok (.error cause, ⟨.sampleWithNumbers, log⟩) := by
  have hc := Context.mirrored_sampleWithNumbers
  refine ⟨hc, ?_, ?_⟩
  · obtain ⟨s₁, hcall⟩ := exists_evaluate_sample
      (.call (some "next") [.literal (.number (.integer 2))]) (.ok (.number (.integer 3))) rfl
    obtain ⟨s₂, haccess⟩ := exists_evaluate_sample
      (.access (some "y")) (.ok (.number (.float 0.5))) rfl
    obtain ⟨s, hplus⟩ := exists_evaluate_sample
      (.builtIn [.plus] [.call (some "next") [.literal (.number (.integer 2))], .access (some "y")])
      (.ok (.number (.float 3.5))) rfl
    obtain ⟨result, result', s₃, s', hsum, hswapped, hcases⟩ :=
      (operands_commute .sampleWithNumbers hc #[] #[] _ _).2.2 _ _ _ _ hcall haccess
    cases hplus.symm.trans hsum
    rcases hcases with ⟨v, hv, rfl⟩ | ⟨cause, _, herror, -⟩
    · cases hv
      exact ⟨s, s', hplus, hswapped⟩
    · cases herror
  · obtain ⟨s, hfails⟩ := exists_evaluate_sample
      (.builtIn [.equality] [.call (some "loop") [], .access (some "z")])
      (.error (.tooDeep "loop" 4)) rfl
    obtain ⟨result, result', log, log', hequal, hswapped, hiff⟩ :=
      (operands_commute .sampleWithNumbers hc #[] #[] (.call (some "loop") [])
        (.access (some "z"))).1 .equality nofun
    cases hfails.symm.trans hequal
    obtain ⟨cause, rfl⟩ := hiff.mp ⟨_, rfl⟩
    exact ⟨⟨_, hfails⟩, cause, log', hswapped⟩

end TreeWalk
