-- SUMMARY: Equal values count alike as conditions, and numbers count as false if they equal zero.
import TreeWalk.Proofs.Operands
import TreeWalk.Proofs.Raising
import TreeWalk.Proofs.Splicing

/-! # Truthiness

A condition asks of a number whether it is zero, and asks it of integers and of floats in two
ways. Equality compares exact values instead. The two agree: a number is zero if and only if it is
equal to the integer zero, which both zeros of the floats are and NaN and the infinities are not.
Since equality is transitive, equal numbers are zero together, and values that are equal count
alike.

For a conditional this means that conditions with equal values choose alike, and choosing is all
that a condition does.
-/

namespace TreeWalk

/-! ## Values -/

theorem exactValue?_zero : exactValue? 0 = some (integerValue 0) := by
  have hbits : Binary64.ofFloat 0 = .finite false 0 Binary64.leastExponent := rfl
  exact exactValue?_eq_integerValue hbits (by norm_num [Binary64.signed])

namespace Number

/-- Being zero is being equal to the integer zero. -/
theorem isZero_eq : (n : Number) → n.isZero = (n == integer 0)
  | integer _ => rfl
  | float x => by
    rw [Bool.eq_iff_iff, beq_iff]
    change (x == 0) = true ↔ _
    rw [float_beq_iff, exactValue?_zero]
    rfl

theorem isZero_congr {m n : Number} (h : (m == n) = true) : m.isZero = n.isZero := by
  rw [isZero_eq, isZero_eq, Bool.eq_iff_iff]
  exact ⟨beq_trans (beq_comm m n ▸ h), beq_trans h⟩

end Number

namespace Value

theorem truthy_congr {v w : Value} (h : (v == w) = true) : v.truthy = w.truthy := by
  match v, w, (beq_iff v w).mp h with
  | number m, number n, _ => exact congrArg not (Number.isZero_congr h)
  | string s, string t, hst => exact congrArg (fun s => !s.isEmpty) hst
  | boolean p, boolean q, hpq => exact hpq

/-- A number counts as true unless it is equal to zero. -/
theorem truthy_number (n : Number) : (number n).truthy = !(number n == number (.integer 0)) :=
  congrArg not n.isZero_eq

end Value

/-! ## Conditionals -/

namespace Lexical

variable {caller : Caller} {chain : Chain} {body : List Stmt}

/-- A comparison has a value only if its operands have. -/
theorem values_of_equality {a b : Expr} {equal : Bool}
    (h : evaluate caller chain (.builtIn [.equality] [a, b]) = .ok (.boolean equal)) :
    ∃ v w, evaluate caller chain a = .ok v ∧ evaluate caller chain b = .ok w ∧
      (v == w) = equal := by
  rw [evaluate] at h
  obtain ⟨v, hv, h⟩ := bind_eq_ok_iff.mp h
  obtain ⟨w, hw, h⟩ := bind_eq_ok_iff.mp h
  cases h
  exact ⟨v, w, hv, hw, rfl⟩

/-- Conditions whose values count alike choose alike. -/
theorem choose_congr {e₁ e₂ : Expr} {v w : Value} (hbody : body ≠ [])
    (hv : evaluate caller chain e₁ = .ok v) (hw : evaluate caller chain e₂ = .ok w)
    (h : v.truthy = w.truthy) (runBody : Frame → Ending) :
    choose caller chain [e₁] body runBody = choose caller chain [e₂] body runBody := by
  rw [choose_of_value hbody hv, choose_of_value hbody hw, h]

end Lexical

section Run

variable {s s' : Session} {e : Expr} {v : Value} {body : List Stmt}

/-- Where its condition ended, a conditional goes on with its body or is done. -/
theorem choose_of_evaluate (hs : s.context.Aligned) (hbody : body ≠ [])
    (hv : e.evaluate s = .ok (.ok v, s')) :
    choose [e] body s = if v.truthy then executeAll body s' else .ok (.ok none, s') := by
  rw [choose_run (theCondition_of_body e hbody)]
  refine (Action.bind_of_ok hv).trans ?_
  split
  · exact withHeadroom_of_evaluate hs hv fun invoke => executeAllWith invoke body
  · rfl

/-- The body is entered if and only if the condition counts as true. -/
theorem exists_enters_body_iff (hbody : body ≠ []) (hv : e.evaluate s = .ok (.ok v, s')) :
    (∃ k s₁, (Node.conditional [e] body).Enters s k (.block body) s₁) ↔ v.truthy = true := by
  constructor
  · rintro ⟨k, s₁, henter⟩
    cases henter with
    | chosen hcondition hvalue htruthy =>
      cases (theCondition_of_body e hbody).symm.trans hcondition
      cases hv.symm.trans hvalue
      exact htruthy
  · intro htruthy
    exact ⟨0, s', .chosen (theCondition_of_body e hbody) hv htruthy⟩

end Run

/-- Conditions that compare as equal make no difference to a conditional: it ends in the same
    result and leaves the same context. If a condition is a number, its body is executed if and
    only if comparing it with the integer zero gives false, and then from where the condition
    ended; otherwise the conditional ends there. -/
theorem equality_and_truthiness_agree (c : Context) (hc : c.Mirrored) (log : Array Event)
    (body : List Stmt) (hbody : body ≠ []) :
    (∀ (e₁ e₂ : Expr) (s : Session),
      (Expr.builtIn [.equality] [e₁, e₂]).evaluate ⟨c, log⟩ = .ok (.ok (.boolean true), s) →
        Action.EndAlike (choose [e₁] body) (choose [e₂] body) c) ∧
    (∀ (e : Expr) (n : Number) (s : Session), e.evaluate ⟨c, log⟩ = .ok (.ok (.number n), s) →
      ∃ equal log', (Expr.builtIn [.equality] [e, .literal (.number (.integer 0))]).evaluate
          ⟨c, log⟩ = .ok (.ok (.boolean equal), ⟨c, log'⟩) ∧
        ((∃ k s₁, (Node.conditional [e] body).Enters ⟨c, log⟩ k (.block body) s₁) ↔
          equal = false) ∧
        s.context = c ∧
        choose [e] body ⟨c, log⟩ = if equal then .ok (.ok none, s) else executeAll body s) := by
  have haligned := hc.toAligned
  constructor
  · intro e₁ e₂ s hequal
    obtain ⟨v, w, hv, hw, hvw⟩ :=
      Lexical.values_of_equality ((exists_evaluate_iff haligned log).mp ⟨s, hequal⟩)
    have hsame := Lexical.choose_congr hbody hv hw (Value.truthy_congr hvw)
      (Lexical.executeAll c.caller c.chain.outer body)
    have hends := choose_endsIn haligned [e₁] body
    rw [hsame] at hends
    exact ⟨_, _, hends, choose_endsIn haligned [e₂] body⟩
  · intro e n s hn
    have hvalue := (exists_evaluate_iff haligned log).mp ⟨s, hn⟩
    obtain ⟨log', hequal⟩ :=
      evaluate_yields haligned (.builtIn [.equality] [e, .literal (.number (.integer 0))]) log
    rw [Lexical.evaluate_of_operands .equality hvalue rfl] at hequal
    refine ⟨_, log', hequal, ?_, context_of_evaluate (s := ⟨c, log⟩) haligned hn, ?_⟩
    · rw [exists_enters_body_iff hbody hn, Value.truthy_number, Bool.not_eq_true']
    · rw [choose_of_evaluate (s := ⟨c, log⟩) haligned hbody hn, Value.truthy_number]
      cases Value.number n == .number (.integer 0) <;> rfl

/-- Declares a variable, and returns what a call makes of it. -/
def sampleBody : List Stmt :=
  [.declaration (some "w") (some (.literal (.number (.integer 4)))),
    .returns (.call (some "next") [.access (some "w")])]

/-- An integer that a call gives and a float that a sum gives choose alike, because they are equal.
    What is not a number counts as true, and the negative zero as false. -/
theorem equality_and_truthiness_agree_sample :
    Context.sampleWithNumbers.Mirrored ∧ sampleBody ≠ [] ∧
      (∃ s, (Expr.builtIn [.equality] [.call (some "next") [.literal (.number (.integer 2))],
        .builtIn [.plus] [.access (some "y"), .literal (.number (.float 2.5))]]).evaluate
          ⟨.sampleWithNumbers, #[]⟩ = .ok (.ok (.boolean true), s)) ∧
      Action.EndAlike (choose [.call (some "next") [.literal (.number (.integer 2))]] sampleBody)
        (choose [.builtIn [.plus] [.access (some "y"), .literal (.number (.float 2.5))]] sampleBody)
        .sampleWithNumbers ∧
      choose [.literal (.number (.float (0.0 / 0.0)))] sampleBody ⟨.sampleWithNumbers, #[]⟩ =
        executeAll sampleBody ⟨.sampleWithNumbers, #[]⟩ ∧
      choose [.literal (.number (.float (-0.0)))] sampleBody ⟨.sampleWithNumbers, #[]⟩ =
        .ok (.ok none, ⟨.sampleWithNumbers, #[]⟩) := by
  have hc := Context.mirrored_sampleWithNumbers
  have hbody : sampleBody ≠ [] := List.cons_ne_nil _ _
  obtain ⟨hconditional, hnumber⟩ :=
    equality_and_truthiness_agree .sampleWithNumbers hc #[] sampleBody hbody
  obtain ⟨s, hequal⟩ := exists_evaluate_sample (.builtIn [.equality]
    [.call (some "next") [.literal (.number (.integer 2))],
      .builtIn [.plus] [.access (some "y"), .literal (.number (.float 2.5))]])
    (.ok (.boolean true)) rfl
  have hfloat : ∀ (x : Float) (equal : Bool),
      (Value.number (.float x) == .number (.integer 0)) = equal →
        choose [.literal (.number (.float x))] sampleBody ⟨.sampleWithNumbers, #[]⟩ =
          if equal then .ok (.ok none, ⟨.sampleWithNumbers, #[]⟩)
          else executeAll sampleBody ⟨.sampleWithNumbers, #[]⟩ := by
    rintro x _ rfl
    obtain ⟨equal, log, hcompared, -, -, hchoose⟩ :=
      hnumber (.literal (.number (.float x))) (.float x) ⟨.sampleWithNumbers, #[]⟩ rfl
    cases hcompared
    exact hchoose
  exact ⟨hc, hbody, ⟨s, hequal⟩, hconditional _ _ s hequal,
    hfloat (0.0 / 0.0) false (by decide +kernel), hfloat (-0.0) true (by decide +kernel)⟩

end TreeWalk
