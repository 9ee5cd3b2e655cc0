-- SUMMARY: The exact values of floats, and that comparing floats is comparing these.
import Mathlib
import TreeWalk.Number

/-! # Exact values of floats

A float that is finite stands for a rational number, an infinity stands for itself, and NaN for
nothing. The value is read off the bits without rounding, and both zeros have the value zero.

Floats compare by their signs, exponents and mantissas, not by their values. Both ways agree
because numbers are written with their leading bit wherever the exponent allows it (`Canonical`):
of two numbers the one with the larger exponent is the larger one, whatever the mantissas are.
-/

namespace TreeWalk

open Float.Model Float.Model.UnpackedFloat

/-- The rational numbers between two infinities. -/
abbrev ExtendedRat := WithBot (WithTop ℚ)

/-- A rational number as one of them. -/
def ofRat (q : ℚ) : ExtendedRat :=
  (q : WithTop ℚ)

theorem strictMono_ofRat : StrictMono ofRat := fun _ _ h =>
  WithBot.coe_lt_coe.mpr (WithTop.coe_lt_coe.mpr h)

/-- The exact value of what a bit pattern says, which NaN has not. Both zeros
    are zero. -/
def Binary64.value? : Binary64 → Option ExtendedRat
  | notANumber => none
  | infinite true => some ⊥
  | infinite false => some ⊤
  | finite negative mantissa exponent => some (ofRat (signed negative mantissa * 2 ^ exponent))

/-- The exact value of a float, read from its bits. -/
def exactValue? (x : Float) : Option ExtendedRat :=
  (Binary64.ofFloat x).value?

/-! ## Bit patterns -/

theorem toNat_unpackMantissa (b : BitVec Format.binary64.numBits) :
    (unpackMantissa b).toNat = b.toNat % 2 ^ 52 := by
  simp [unpackMantissa, BitVec.extractLsb_toNat]

theorem toNat_unpackExponent (b : BitVec Format.binary64.numBits) :
    (unpackExponent b).toNat = b.toNat / 2 ^ 52 % 2 ^ 11 := by
  simp [unpackExponent, BitVec.extractLsb_toNat, Nat.shiftRight_eq_div_pow]

theorem unpackMantissa_eq_zero_iff (bits : UInt64) :
    @unpackMantissa Format.binary64 bits.toBitVec = 0#_ ↔ bits.toNat % 2 ^ 52 = 0 := by
  rw [BitVec.toNat_eq, toNat_unpackMantissa]
  rfl

theorem unpackExponent_eq_zero_iff (bits : UInt64) :
    @unpackExponent Format.binary64 bits.toBitVec = 0#_ ↔
      bits.toNat / 2 ^ 52 % 2 ^ 11 = 0 := by
  rw [BitVec.toNat_eq, toNat_unpackExponent]
  rfl

theorem unpackExponent_eq_ones_iff (bits : UInt64) :
    @unpackExponent Format.binary64 bits.toBitVec = -1#_ ↔
      bits.toNat / 2 ^ 52 % 2 ^ 11 = 2 ^ 11 - 1 := by
  rw [BitVec.toNat_eq, toNat_unpackExponent]
  rfl

/-- The hidden leading one stands before the fraction. -/
theorem toNat_one_append (b : BitVec Format.binary64.numBits) :
    (1#1 ++ unpackMantissa b).toNat = 2 ^ 52 + b.toNat % 2 ^ 52 := by
  rw [BitVec.toNat_append, ← Nat.shiftLeft_add_eq_or_of_lt (BitVec.isLt _), toNat_unpackMantissa]
  rfl

theorem toNat_unpackSign (b : BitVec Format.binary64.numBits) :
    (unpackSign b).toNat = b.toNat / 2 ^ 63 := by
  have hone : b.toNat / 2 ^ 63 < 2 := Nat.div_lt_of_lt_mul b.isLt
  have hsign : (unpackSign b).toNat = b.toNat / 2 ^ 63 % 2 := by
    simp [unpackSign, BitVec.extractLsb_toNat, Nat.shiftRight_eq_div_pow]
  rw [hsign, Nat.mod_eq_of_lt hone]

/-- Whether a sign is that of the negative numbers. -/
def isNegative : Sign → Bool
  | .positive => false
  | .negative => true

theorem isNegative_ofBitVec (v : BitVec 1) : isNegative (Sign.ofBitVec v) = (v.toNat == 1) := by
  decide +revert

namespace Binary64

/-- The same reading as the one that operations on floats are defined by. -/
def ofUnpacked : UnpackedFloat → Binary64
  | .notANumber => notANumber
  | .infinity sign => infinite (isNegative sign)
  | .zero sign => finite (isNegative sign) 0 leastExponent
  | .finite sign mantissa exponent _ => finite (isNegative sign) mantissa exponent

theorem ofBits_eq (bits : UInt64) :
    ofBits bits = ofUnpacked (unpack Format.binary64 bits.toBitVec) := by
  have hsign := isNegative_ofBitVec (@unpackSign Format.binary64 bits.toBitVec)
  have hbias : (Format.binary64.exponentBias : Int) = 1023 := rfl
  have hones := unpackExponent_eq_ones_iff bits
  have hzeros := unpackExponent_eq_zero_iff bits
  have hfraction := unpackMantissa_eq_zero_iff bits
  rw [toNat_unpackSign] at hsign
  unfold ofBits UnpackedFloat.unpack
  simp only [fractionBits, exponentBits, Nat.pow_eq, beq_iff_eq, hones, hzeros, hfraction]
  split
  · split
    · exact congrArg infinite hsign.symm
    · rfl
  · split
    · next hexponent =>
      split
      · next hzero =>
        rw [hzero]
        exact congrArg (finite · 0 leastExponent) hsign.symm
      · rw [ofUnpacked, hsign, toNat_unpackMantissa, toNat_unpackExponent,
          UInt64.toNat_toBitVec, hexponent, hbias]
        rfl
    · rw [ofUnpacked, hsign, toNat_one_append, toNat_unpackExponent, UInt64.toNat_toBitVec, hbias]
      congr 1
      simp only [leastExponent]
      omega

theorem ofFloat_eq (x : Float) : ofFloat x = ofUnpacked x.toModel.unpack :=
  ofBits_eq x.toBits

theorem isFinite_iff_ofFloat {x : Float} :
    x.isFinite = true ↔ ∃ negative m e, ofFloat x = finite negative m e := by
  change x.toModel.unpack.isFinite = true ↔ _
  rw [ofFloat_eq]
  cases x.toModel.unpack with
  | notANumber | infinity s =>
    exact iff_of_false Bool.false_ne_true fun ⟨_, _, _, h⟩ => Binary64.noConfusion h
  | zero s | finite s m e hpos => exact iff_of_true rfl ⟨_, _, _, rfl⟩

theorem isNaN_iff_ofFloat {x : Float} : x.isNaN = true ↔ ofFloat x = notANumber := by
  change x.toModel.unpack.isNaN = true ↔ _
  rw [ofFloat_eq]
  cases x.toModel.unpack with
  | notANumber => exact iff_of_true rfl rfl
  | infinity s | zero s | finite s m e hpos =>
    exact iff_of_false Bool.false_ne_true Binary64.noConfusion

theorem value?_eq_none_iff {b : Binary64} : b.value? = none ↔ b = notANumber := by
  cases b with
  | notANumber => exact iff_of_true rfl rfl
  | infinite negative => cases negative <;> exact iff_of_false nofun nofun
  | finite negative m e => exact iff_of_false nofun nofun

/-- How finite numbers are written: the mantissa has its leading bit, unless
    the exponent is the least one. -/
structure Canonical (mantissa : Nat) (exponent : Int) : Prop where
  lt : mantissa < 2 ^ 53
  least : leastExponent ≤ exponent
  leading : exponent = leastExponent ∨ 2 ^ 52 ≤ mantissa

theorem canonical_of_ofBits {bits : UInt64} {negative : Bool} {mantissa : Nat} {exponent : Int}
    (h : ofBits bits = finite negative mantissa exponent) : Canonical mantissa exponent := by
  have hfraction : bits.toNat % 2 ^ 52 < 2 ^ 52 := Nat.mod_lt _ (Nat.two_pow_pos 52)
  simp only [ofBits, fractionBits, exponentBits, Nat.pow_eq, beq_iff_eq] at h
  split at h
  · split at h <;> cases h
  · split at h
    · cases h
      exact ⟨by omega, Int.le_refl _, .inl rfl⟩
    · next hexponent =>
      cases h
      exact ⟨by omega, by omega, .inr (Nat.le_add_right _ _)⟩

/-- How often the least step between two numbers goes into a number. -/
def steps (mantissa : Nat) (exponent : Int) : Nat :=
  mantissa * 2 ^ (exponent - leastExponent).toNat

theorem steps_pos {mantissa : Nat} (h : 0 < mantissa) (exponent : Int) :
    0 < steps mantissa exponent :=
  Nat.mul_pos h (Nat.two_pow_pos _)

theorem Canonical.steps_lt_of_exponent_lt {m n : Nat} {d e : Int} (hm : Canonical m d)
    (hn : Canonical n e) (h : d < e) : steps m d < steps n e := by
  have hleading : 2 ^ 52 ≤ n := by
    rcases hn.leading with he | hn
    · exact absurd (he ▸ h) (Int.not_lt.mpr hm.least)
    · exact hn
  have hexponent : 53 + (d - leastExponent).toNat ≤ 52 + (e - leastExponent).toNat := by
    have := hm.least
    omega
  calc steps m d < 2 ^ 53 * 2 ^ (d - leastExponent).toNat :=
        Nat.mul_lt_mul_of_pos_right hm.lt (Nat.two_pow_pos _)
    _ = 2 ^ (53 + (d - leastExponent).toNat) := (Nat.pow_add ..).symm
    _ ≤ 2 ^ (52 + (e - leastExponent).toNat) := Nat.pow_le_pow_right Nat.two_pos hexponent
    _ = 2 ^ 52 * 2 ^ (e - leastExponent).toNat := Nat.pow_add ..
    _ ≤ steps n e := Nat.mul_le_mul_right _ hleading

/-- Canonical numbers are in order by their exponents, and by their mantissas
    where these are the same. -/
theorem Canonical.compare_steps {m n : Nat} {d e : Int} (hm : Canonical m d) (hn : Canonical n e) :
    compare (steps m d) (steps n e) = (compare d e).then (compare m n) := by
  rcases lt_trichotomy d e with h | h | h
  · rw [compare_lt_iff_lt.mpr h, compare_lt_iff_lt.mpr (hm.steps_lt_of_exponent_lt hn h)]
    rfl
  · subst h
    rw [Std.compare_self]
    have hmono : StrictMono fun k : Nat => steps k d :=
      fun _ _ h => Nat.mul_lt_mul_of_pos_right h (Nat.two_pow_pos _)
    rw [← cmp_eq_compare, ← cmp_eq_compare, hmono.cmp_map_eq]
    rfl
  · rw [compare_gt_iff_gt.mpr h, compare_gt_iff_gt.mpr (hn.steps_lt_of_exponent_lt hm h)]
    rfl

/-- The value of a whole number of least steps. -/
def ofSteps (n : Int) : ExtendedRat :=
  ofRat (n * 2 ^ leastExponent)

theorem strictMono_ofSteps : StrictMono ofSteps := by
  intro m n h
  have hpos : (0 : ℚ) < 2 ^ leastExponent := zpow_pos rfl _
  exact strictMono_ofRat (mul_lt_mul_of_pos_right (Int.cast_lt.mpr h) hpos)

theorem Canonical.value?_eq {m : Nat} {e : Int} (h : Canonical m e) (negative : Bool) :
    (finite negative m e).value? = some (ofSteps (signed negative (steps m e))) := by
  have hexponent : ((e - leastExponent).toNat : Int) + leastExponent = e := by
    have := h.least
    omega
  have hsteps : (signed negative (steps m e) : ℚ) =
      signed negative m * 2 ^ ((e - leastExponent).toNat : Int) := by
    rw [zpow_natCast]
    cases negative <;> simp [signed, steps]
  rw [value?, ofSteps, hsteps, mul_assoc, ← zpow_add₀ two_ne_zero, hexponent]

end Binary64

/-! ## Comparing floats -/

open Binary64

theorem canonical_of_unpack {x : Float} {sign : Sign} {m : Nat} {e : Int} {hpos : 0 < m}
    (h : x.toModel.unpack = .finite sign m e hpos) : Canonical m e := by
  have hbits : Binary64.ofBits x.toBits = ofUnpacked (.finite sign m e hpos) :=
    h ▸ ofFloat_eq x
  exact canonical_of_ofBits hbits

theorem value?_zero (negative : Bool) :
    (finite negative 0 leastExponent).value? = some (ofSteps 0) := by
  have hzero : Canonical 0 leastExponent := ⟨Nat.two_pow_pos 53, Int.le_refl _, .inl rfl⟩
  rw [hzero.value?_eq, steps, Nat.zero_mul]
  cases negative <;> rfl

theorem signed_pos {k : Nat} (hk : 0 < k) : 0 < signed (isNegative .positive) k :=
  Int.natCast_pos.mpr hk

theorem signed_neg {k : Nat} (hk : 0 < k) : signed (isNegative .negative) k < 0 :=
  Int.neg_neg_of_pos (Int.natCast_pos.mpr hk)

theorem compare_zero_finite {s t : Sign} {n : Nat} {e : Int} {hn : 0 < n} :
    (UnpackedFloat.zero s).compare (.finite t n e hn) =
      some (cmp 0 (signed (isNegative t) (steps n e))) := by
  cases t with
  | positive => exact congrArg some ((cmp_eq_lt_iff _ _).mpr (signed_pos (steps_pos hn e))).symm
  | negative => exact congrArg some ((cmp_eq_gt_iff _ _).mpr (signed_neg (steps_pos hn e))).symm

theorem compare_finite_zero {s t : Sign} {m : Nat} {d : Int} {hm : 0 < m} :
    (UnpackedFloat.finite s m d hm).compare (.zero t) =
      some (cmp (signed (isNegative s) (steps m d)) 0) := by
  cases s with
  | positive => exact congrArg some ((cmp_eq_gt_iff _ _).mpr (signed_pos (steps_pos hm d))).symm
  | negative => exact congrArg some ((cmp_eq_lt_iff _ _).mpr (signed_neg (steps_pos hm d))).symm

theorem compare_finite {s t : Sign} {m n : Nat} {d e : Int} {hm : 0 < m} {hn : 0 < n}
    (hd : Canonical m d) (he : Canonical n e) :
    (UnpackedFloat.finite s m d hm).compare (.finite t n e hn) =
      some (cmp (signed (isNegative s) (steps m d)) (signed (isNegative t) (steps n e))) := by
  have hsteps : cmp (steps m d : Int) (steps n e) = (compare d e).then (compare m n) := by
    rw [Nat.strictMono_cast.cmp_map_eq, cmp_eq_compare, hd.compare_steps he]
  cases s with
  | positive =>
    cases t with
    | positive => exact congrArg some hsteps.symm
    | negative =>
      have hlt := (signed_neg (steps_pos hn e)).trans (signed_pos (steps_pos hm d))
      exact congrArg some ((cmp_eq_gt_iff _ _).mpr hlt).symm
  | negative =>
    cases t with
    | positive =>
      have hlt := (signed_neg (steps_pos hm d)).trans (signed_pos (steps_pos hn e))
      exact congrArg some ((cmp_eq_lt_iff _ _).mpr hlt).symm
    | negative =>
      have hneg : StrictAnti fun k : Int => -k := fun _ _ => Int.neg_lt_neg
      have hswap : cmp (-(steps m d : Int)) (-(steps n e)) = cmp (steps n e : Int) (steps m d) :=
        hneg.cmp_map_eq ..
      rw [← cmp_swap (steps m d : Int), hsteps] at hswap
      exact congrArg some hswap.symm

theorem cmp_values {x y : Binary64} {a b : Int} (hx : x.value? = some (ofSteps a))
    (hy : y.value? = some (ofSteps b)) :
    (x.value?.bind fun v => y.value?.map (cmp v)) = some (cmp a b) := by
  rw [hx, hy, Option.bind_some, Option.map_some, strictMono_ofSteps.cmp_map_eq]

theorem compare_unpack (x y : Float) :
    x.toModel.unpack.compare y.toModel.unpack =
      (exactValue? x).bind fun v => (exactValue? y).map (cmp v) := by
  unfold exactValue?
  rw [ofFloat_eq, ofFloat_eq]
  cases hx : x.toModel.unpack with
  | notANumber => cases y.toModel.unpack <;> rfl
  | infinity s =>
    cases y.toModel.unpack with
    | infinity t => cases s <;> cases t <;> rfl
    | notANumber | zero t | finite t n e hn => cases s <;> rfl
  | zero s =>
    cases hy : y.toModel.unpack with
    | notANumber => rfl
    | infinity t => cases t <;> rfl
    | zero t => exact (cmp_values (value?_zero _) (value?_zero _)).symm
    | finite t n e hn =>
      have he := (canonical_of_unpack hy).value?_eq (isNegative t)
      exact compare_zero_finite.trans (cmp_values (value?_zero _) he).symm
  | finite s m d hm =>
    have hd := (canonical_of_unpack hx).value?_eq (isNegative s)
    cases hy : y.toModel.unpack with
    | notANumber => rfl
    | infinity t => cases t <;> rfl
    | zero t => exact compare_finite_zero.trans (cmp_values hd (value?_zero _)).symm
    | finite t n e hn =>
      have he := (canonical_of_unpack hy).value?_eq (isNegative t)
      exact (compare_finite (canonical_of_unpack hx) (canonical_of_unpack hy)).trans
        (cmp_values hd he).symm

theorem compare_eq_some_iff {x y : Float} {o : Ordering} :
    x.toModel.unpack.compare y.toModel.unpack = some o ↔
      ∃ v w, exactValue? x = some v ∧ exactValue? y = some w ∧ cmp v w = o := by
  rw [compare_unpack]
  simp only [Option.bind_eq_some_iff, Option.map_eq_some_iff]
  constructor
  · rintro ⟨v, hv, w, hw, h⟩
    exact ⟨v, w, hv, hw, h⟩
  · rintro ⟨v, w, hv, hw, h⟩
    exact ⟨v, hv, w, hw, h⟩

/-- Floats are equal if they have the same exact value. -/
theorem float_beq_iff {x y : Float} :
    (x == y) = true ↔ ∃ v, exactValue? x = some v ∧ exactValue? y = some v := by
  have hcompare : (x == y) = true ↔ x.toModel.unpack.compare y.toModel.unpack = some .eq := by
    change (x.toModel.unpack.compare y.toModel.unpack == some .eq) = true ↔ _
    exact beq_iff_eq
  simp only [hcompare, compare_eq_some_iff, cmp_eq_eq_iff]
  constructor
  · rintro ⟨v, w, hv, hw, rfl⟩
    exact ⟨v, hv, hw⟩
  · rintro ⟨v, hv, hw⟩
    exact ⟨v, v, hv, hw, rfl⟩

theorem float_lt_iff {x y : Float} :
    x < y ↔ ∃ v w, exactValue? x = some v ∧ exactValue? y = some w ∧ v < w := by
  have hcompare : x < y ↔ x.toModel.unpack.compare y.toModel.unpack = some .lt :=
    decide_eq_true_iff.trans beq_iff_eq
  simp only [hcompare, compare_eq_some_iff, cmp_eq_lt_iff]

theorem isLE_cmp_iff {v w : ExtendedRat} : (cmp v w).isLE = true ↔ v ≤ w := by
  rw [Ordering.isLE_iff_ne_gt, cmp_eq_gt_iff, not_lt]

theorem float_le_iff {x y : Float} :
    x ≤ y ↔ ∃ v w, exactValue? x = some v ∧ exactValue? y = some w ∧ v ≤ w := by
  have hcompare : x ≤ y ↔ (x.toModel.unpack.compare y.toModel.unpack).any (·.isLE) = true :=
    decide_eq_true_iff
  rw [hcompare, Option.any_eq_true]
  constructor
  · rintro ⟨o, ho, hle⟩
    obtain ⟨v, w, hv, hw, rfl⟩ := compare_eq_some_iff.mp ho
    exact ⟨v, w, hv, hw, isLE_cmp_iff.mp hle⟩
  · rintro ⟨v, w, hv, hw, hle⟩
    exact ⟨cmp v w, compare_eq_some_iff.mpr ⟨v, w, hv, hw, rfl⟩, isLE_cmp_iff.mpr hle⟩

/-- Every bit pattern makes a float with the value that it says, although all
    patterns of NaN make the same float. -/
theorem exactValue?_ofBits (bits : UInt64) :
    exactValue? (Float.ofBits bits) = (Binary64.ofBits bits).value? := by
  have hunpack : (Float.ofBits bits).toModel.unpack =
      unpack Format.binary64 (pack Format.binary64 (unpack Format.binary64 bits.toBitVec)) := rfl
  rw [exactValue?, ofFloat_eq, ofBits_eq, hunpack, pack_unpack]
  split
  · next hnan =>
    rw [unpack_packedNaN]
    obtain ⟨hones, hfraction⟩ := of_decide_eq_true hnan
    rw [UnpackedFloat.unpack, if_pos hones, if_neg hfraction]
  · rfl

end TreeWalk
