-- SUMMARY: Numbers are equal if their exact values are, and values if they are of one kind and equal as such.
import TreeWalk.Proofs.ExactValue
import TreeWalk.Value

/-! # Equality

Comparing an integer with a float converts neither to the other, because both conversions lose
something: most integers beyond `2 ^ 53` are no floats, and most floats are no integers. The
comparison asks instead whether the float is a whole number among the integers of 64 bits, and only
then which one. Its answer is therefore that of the exact values, and equality inherits symmetry
and transitivity from these.
-/

namespace TreeWalk

/-! ## Whole numbers -/

namespace Binary64

theorem two_zpow_eq (e : Int) : (2 : ℚ) ^ e = 2 ^ e.toNat / 2 ^ (-e).toNat := by
  obtain ⟨k, rfl | rfl⟩ := e.eq_nat_or_neg <;> simp

theorem isWhole_iff {negative : Bool} {m : Nat} {e : Int} :
    (finite negative m e).isWhole = true ↔ 2 ^ (-e).toNat ∣ m :=
  beq_iff_eq.trans (Nat.dvd_iff_mod_eq_zero ..).symm

/-- Nothing is lost where nothing stands behind the point. -/
theorem wholePart_eq {m : Nat} {e : Int} (h : 2 ^ (-e).toNat ∣ m) :
    (wholePart m e : ℚ) = m * 2 ^ e := by
  have hdvd : 2 ^ (-e).toNat ∣ m * 2 ^ e.toNat := h.mul_right _
  have hpos : (2 : ℚ) ^ (-e).toNat ≠ 0 := pow_ne_zero _ two_ne_zero
  rw [wholePart, Nat.pow_eq, Nat.pow_eq, Nat.cast_div_charZero hdvd, two_zpow_eq]
  push_cast
  rw [mul_div_assoc]

theorem signed_wholePart_eq {m : Nat} {e : Int} (h : 2 ^ (-e).toNat ∣ m) (negative : Bool) :
    (signed negative (wholePart m e) : ℚ) = signed negative m * 2 ^ e := by
  cases negative with
  | false => exact wholePart_eq h
  | true =>
    simp only [signed, if_true, Int.cast_neg, Int.cast_natCast, wholePart_eq h, neg_mul]

theorem natAbs_signed (negative : Bool) (m : Nat) : (signed negative m).natAbs = m := by
  cases negative with
  | false => exact Int.natAbs_natCast m
  | true => exact (Int.natAbs_neg _).trans (Int.natAbs_natCast m)

/-- A number that is an integer has nothing behind its point. -/
theorem dvd_of_eq_intCast {negative : Bool} {m : Nat} {e n : Int}
    (h : (signed negative m * 2 ^ e : ℚ) = n) : 2 ^ (-e).toNat ∣ m := by
  rcases Int.le_total 0 e with he | he
  · rw [Int.toNat_of_nonpos (Int.neg_nonpos_of_nonneg he)]
    exact one_dvd m
  · have hpos : (2 : ℚ) ^ (-e).toNat ≠ 0 := pow_ne_zero _ two_ne_zero
    rw [two_zpow_eq, Int.toNat_of_nonpos he, pow_zero, mul_one_div, div_eq_iff hpos] at h
    have hint : signed negative m = n * 2 ^ (-e).toNat := mod_cast h
    have hnat := congrArg Int.natAbs hint
    rw [natAbs_signed, Int.natAbs_mul, Int.natAbs_pow] at hnat
    exact hnat ▸ Nat.dvd_mul_left ..

end Binary64

/-! ## Integers and floats -/

open Binary64

/-- The exact value of an integer. -/
def integerValue (n : Int) : ExtendedRat :=
  ofRat n

theorem strictMono_integerValue : StrictMono integerValue := fun _ _ h =>
  strictMono_ofRat (Int.cast_lt.mpr h)

theorem exactValue?_eq_integerValue {x : Float} {negative : Bool} {m : Nat} {e n : Int}
    (hx : Binary64.ofFloat x = finite negative m e) (hn : (signed negative m * 2 ^ e : ℚ) = n) :
    exactValue? x = some (integerValue n) := by
  rw [exactValue?, hx, Binary64.value?, hn, integerValue]

theorem exactValue?_leastInteger : exactValue? leastInteger = some (integerValue (-2 ^ 63)) := by
  have hbits : Binary64.ofFloat leastInteger = finite true (2 ^ 52) 11 := rfl
  exact exactValue?_eq_integerValue hbits (by norm_num [signed])

theorem exactValue?_integerBound : exactValue? integerBound = some (integerValue (2 ^ 63)) := by
  have hbits : Binary64.ofFloat integerBound = finite false (2 ^ 52) 11 := rfl
  exact exactValue?_eq_integerValue hbits (by norm_num [signed])

theorem leastInteger_le_iff {x : Float} {n : Int} (h : exactValue? x = some (integerValue n)) :
    leastInteger ≤ x ↔ -2 ^ 63 ≤ n := by
  simp [float_le_iff, exactValue?_leastInteger, h, strictMono_integerValue.le_iff_le]

theorem lt_integerBound_iff {x : Float} {n : Int} (h : exactValue? x = some (integerValue n)) :
    x < integerBound ↔ n < 2 ^ 63 := by
  simp [float_lt_iff, exactValue?_integerBound, h, strictMono_integerValue.lt_iff_lt]

/-- Among the integers of 64 bits, clamping changes nothing. -/
theorem ofIntClamp_eq_iff {k : Int} {n : Int64} :
    (-2 ^ 63 ≤ k ∧ k < 2 ^ 63) ∧ Int64.ofIntClamp k = n ↔ k = n.toInt := by
  constructor
  · rintro ⟨⟨hle, hlt⟩, rfl⟩
    exact (Int64.toInt_ofIntClamp hle (Int.le_of_lt_add_one hlt)).symm
  · rintro rfl
    exact ⟨⟨n.le_toInt, n.toInt_lt⟩, n.ofIntClamp_toInt⟩

/-- The steps of the comparison together ask for the value of the integer. The
    clamped conversion alone would take floats beyond the integers for the last
    one of them. -/
theorem Number.isExactly_iff {n : Int64} {x : Float} :
    isExactly n x = true ↔ exactValue? x = some (integerValue n.toInt) := by
  rw [isExactly]
  cases hx : Binary64.ofFloat x with
  | notANumber => simp [isWhole, exactValue?, hx, Binary64.value?]
  | infinite negative =>
    cases negative <;> simp [isWhole, exactValue?, hx, Binary64.value?, integerValue, ofRat]
  | finite negative m e =>
    by_cases hwhole : 2 ^ (-e).toNat ∣ m
    · have hfinite : x.isFinite = true := isFinite_iff_ofFloat.mpr ⟨negative, m, e, hx⟩
      have hvalue : exactValue? x = some (integerValue (signed negative (wholePart m e))) :=
        exactValue?_eq_integerValue hx (signed_wholePart_eq hwhole negative).symm
      rw [hvalue, Option.some_inj, strictMono_integerValue.injective.eq_iff, ← ofIntClamp_eq_iff]
      simp [hfinite, isWhole_iff.mpr hwhole, leastInteger_le_iff hvalue,
        lt_integerBound_iff hvalue, toInt64]
    · refine iff_of_false (by simp [mt isWhole_iff.mp hwhole]) fun h => hwhole ?_
      rw [exactValue?, hx] at h
      exact dvd_of_eq_intCast (strictMono_ofRat.injective (Option.some.inj h))

/-! ## Numbers and values -/

/-- The exact value of a number. -/
def Number.value? : Number → Option ExtendedRat
  | integer n => some (integerValue n.toInt)
  | float x => exactValue? x

/-- Numbers are equal if they have the same exact value. -/
theorem Number.beq_iff (a b : Number) :
    (a == b) = true ↔ ∃ v, a.value? = some v ∧ b.value? = some v := by
  cases a with
  | integer l =>
    cases b with
    | integer r =>
      refine Iff.trans (beq_iff_eq : (l == r) = true ↔ l = r) ⟨?_, ?_⟩
      · rintro rfl
        exact ⟨_, rfl, rfl⟩
      · rintro ⟨v, hl, hr⟩
        have hvalue := Option.some.inj (hl.trans hr.symm)
        exact Int64.toInt_inj.mp (strictMono_integerValue.injective hvalue)
    | float y =>
      refine (isExactly_iff (n := l) (x := y)).trans ⟨?_, ?_⟩
      · intro h
        exact ⟨_, rfl, h⟩
      · rintro ⟨v, hl, hr⟩
        exact hr.trans hl.symm
  | float x =>
    cases b with
    | integer r =>
      refine (isExactly_iff (n := r) (x := x)).trans ⟨?_, ?_⟩
      · intro h
        exact ⟨_, h, rfl⟩
      · rintro ⟨v, hl, hr⟩
        exact hl.trans hr.symm
    | float y => exact float_beq_iff

theorem Number.beq_comm (a b : Number) : (a == b) = (b == a) := by
  rw [Bool.eq_iff_iff, beq_iff, beq_iff]
  exact exists_congr fun v => And.comm

theorem Number.beq_trans {a b c : Number} (hab : (a == b) = true) (hbc : (b == c) = true) :
    (a == c) = true := by
  obtain ⟨v, ha, hb⟩ := (beq_iff a b).mp hab
  obtain ⟨w, hb', hc⟩ := (beq_iff b c).mp hbc
  obtain rfl : v = w := Option.some.inj (hb.symm.trans hb')
  exact (beq_iff a c).mpr ⟨v, ha, hc⟩

theorem Number.value?_eq_none_iff {a : Number} :
    a.value? = none ↔ ∃ x, a = .float x ∧ x.isNaN = true := by
  cases a with
  | integer n => simp [value?]
  | float x =>
    rw [value?, exactValue?, Binary64.value?_eq_none_iff, ← isNaN_iff_ofFloat]
    constructor
    · intro h
      exact ⟨x, rfl, h⟩
    · rintro ⟨y, hy, h⟩
      rwa [Number.float.inj hy]

theorem Number.beq_self_eq_false_iff (a : Number) :
    (a == a) = false ↔ ∃ x, a = .float x ∧ x.isNaN = true := by
  rw [← value?_eq_none_iff, ← Bool.not_eq_true, beq_iff, Option.eq_none_iff_forall_ne_some]
  simp

/-- Being of one kind, and the same number, string or boolean. -/
def Value.SameAs : Value → Value → Prop
  | number a, number b => ∃ v, a.value? = some v ∧ b.value? = some v
  | string s, string t => s = t
  | boolean p, boolean q => p = q
  | _, _ => False

theorem Value.beq_iff : (v w : Value) → ((v == w) = true ↔ v.SameAs w)
  | number a, number b => Number.beq_iff a b
  | string s, string t => (beq_iff_eq : (s == t) = true ↔ s = t)
  | boolean p, boolean q => (beq_iff_eq : (p == q) = true ↔ p = q)
  | number _, string _ | number _, boolean _ | string _, number _ | string _, boolean _
  | boolean _, number _ | boolean _, string _ => iff_of_false Bool.false_ne_true id

theorem Value.SameAs.symm : {v w : Value} → v.SameAs w → w.SameAs v
  | .number _, .number _, ⟨x, hv, hw⟩ => ⟨x, hw, hv⟩
  | .string _, .string _, h | .boolean _, .boolean _, h => Eq.symm h

theorem Value.beq_comm (v w : Value) : (v == w) = (w == v) := by
  rw [Bool.eq_iff_iff, beq_iff, beq_iff]
  exact ⟨SameAs.symm, SameAs.symm⟩

/-- Equality is that of exact values, where an integer is not rounded and a
    float is what its bits say. It is symmetric, transitive and reflexive on
    everything but NaN, and it never holds between values of two kinds. -/
theorem equality_is_exact :
    (∀ bits, (Number.float (Float.ofBits bits)).value? = (Binary64.ofBits bits).value?) ∧
    (∀ a b : Number, (a == b) = true ↔ ∃ v, a.value? = some v ∧ b.value? = some v) ∧
    (∀ a b : Number, (a == b) = (b == a)) ∧
    (∀ a b c : Number, (a == b) = true → (b == c) = true → (a == c) = true) ∧
    (∀ a : Number, (a == a) = false ↔ ∃ x, a = .float x ∧ x.isNaN = true) ∧
    ∀ v w : Value, (v == w) = true ↔ v.SameAs w := by
  refine ⟨exactValue?_ofBits, Number.beq_iff, Number.beq_comm, ?_,
    Number.beq_self_eq_false_iff, Value.beq_iff⟩
  intro a b c
  exact Number.beq_trans

/-- Both zeros and the integer zero are equal to one another. The least positive
    integer that is no float is not equal to the float below it, to which it
    would be rounded. -/
theorem equality_is_exact_zeros :
    (Number.float (-0.0) == .integer 0) = true ∧ (Number.integer 0 == .float 0.0) = true ∧
      (Number.float (-0.0) == .float 0.0) = true ∧
      (Number.integer 9007199254740993 == .float 9007199254740992.0) = false := by
  have hnegative : (Number.float (-0.0) == .integer 0) = true := by decide +kernel
  have hpositive : (Number.integer 0 == .float 0.0) = true := by decide +kernel
  have htrans := equality_is_exact.2.2.2.1
  exact ⟨hnegative, hpositive, htrans _ _ _ hnegative hpositive, by decide +kernel⟩

end TreeWalk
