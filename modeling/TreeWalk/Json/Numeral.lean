-- SUMMARY: Reading numbers: the digits that count, and the number they make.
import TreeWalk.Json.Fault
import TreeWalk.Value

/-! # Numerals

A numeral is read into a significand of 64 bits and a power of ten. Digits that
no longer fit into the significand are dropped: those of the whole part count as
factors of ten, those of the fraction not at all. A numeral with neither point
nor exponent whose digits all fit is an integer; the others are scaled.

Scaling goes through floats: the significand is rounded first, and then
multiplied or divided by a rounded power of ten. The result need not be the
float nearest to the numeral.
-/

namespace TreeWalk.Json

/-- A numeral as read. Both magnitudes are below `2 ^ 64`. -/
inductive Numeral where
  | whole (negative : Bool) (magnitude : Nat)
  | scaled (negative : Bool) (significand : Nat) (exponent : Int)
  deriving DecidableEq, Repr

namespace Numeral

/-! ### Digits -/

def digitValue (c : Char) : Nat :=
  c.toNat - '0'.toNat

/-- Significands are below this. -/
def significandLimit : Nat := Nat.pow 2 64

/-- Exponents as written are below this. -/
def exponentLimit : Nat := Nat.pow 2 31

/-- Takes the digits of the whole part into the significand. From the first one
    that does not fit, they are only counted. -/
def wholePart (digits : List Char) : Nat × Nat :=
  digits.foldl (fun (significand, dropped) c =>
      let longer := significand * 10 + digitValue c
      if dropped = 0 ∧ longer < significandLimit then (longer, 0) else (significand, dropped + 1))
    (0, 0)

/-- Takes digits of the fraction into the significand, up to the first one that
    does not fit, and counts those taken. -/
def fractionPart (significand : Nat) : List Char → Nat × Nat
  | [] => (significand, 0)
  | c :: rest =>
      let longer := significand * 10 + digitValue c
      if longer < significandLimit then
        let (significand, taken) := fractionPart longer rest
        (significand, taken + 1)
      else
        (significand, 0)

/-- The value of the digits of an exponent, or how many of them were read when it
    became too large. -/
def exponentPart (read value : Nat) : List Char → Except Nat Nat
  | [] => .ok value
  | c :: rest =>
      let longer := value * 10 + digitValue c
      if longer < exponentLimit then exponentPart (read + 1) longer rest else .error (read + 1)

/-! ### Reading -/

/-- Reads the sign of an exponent: whether it points down. -/
def readDirection : Cursor → Bool × Cursor
  | ⟨'+' :: rest, place⟩ => (false, ⟨rest, place.after '+'⟩)
  | ⟨'-' :: rest, place⟩ => (true, ⟨rest, place.after '-'⟩)
  | c => (false, c)

/-- Reads what follows the mark of an exponent. An exponent that is too large is
    an error only if it makes the number too large as well. -/
def readExponent (c : Cursor) (negative : Bool) (significand : Nat) (exponent : Int) :
    Except DocumentError (Numeral × Cursor) :=
  let (down, c) := readDirection c
  match c.span Char.isDigit with
  | ([], _) => if c.rest.isEmpty then c.failHere .endInValue else c.failNext .invalidNumber
  | (digits, after) =>
      match exponentPart 0 0 digits with
      | .ok value =>
          .ok (scaled negative significand (if down then exponent - value else exponent + value),
            after)
      | .error read =>
          if significand ≠ 0 ∧ !down then
            .error ⟨.numberOutOfRange, c.place.afterBytes read c.rest⟩
          else
            .ok (scaled negative 0 0, after)

/-- Reads the exponent of a scaled numeral, if there is one. -/
def readScale (c : Cursor) (negative : Bool) (significand : Nat) (exponent : Int) :
    Except DocumentError (Numeral × Cursor) :=
  match c with
  | ⟨'e' :: rest, place⟩ => readExponent ⟨rest, place.after 'e'⟩ negative significand exponent
  | ⟨'E' :: rest, place⟩ => readExponent ⟨rest, place.after 'E'⟩ negative significand exponent
  | c => .ok (scaled negative significand exponent, c)

/-- Reads what follows the digits of the whole part. -/
def readRest (c : Cursor) (negative : Bool) (significand dropped : Nat) :
    Except DocumentError (Numeral × Cursor) :=
  match c with
  | ⟨'.' :: rest, place⟩ =>
      let c : Cursor := ⟨rest, place.after '.'⟩
      match c.span Char.isDigit with
      | ([], _) => if c.rest.isEmpty then c.failHere .endInValue else c.failNext .invalidNumber
      | (digits, after) =>
          let (significand, taken) := fractionPart significand digits
          readScale after negative significand (dropped - taken)
  | ⟨'e' :: _, _⟩ | ⟨'E' :: _, _⟩ => readScale c negative significand dropped
  | c =>
      if dropped = 0 then .ok (whole negative significand, c)
      else .ok (scaled negative significand dropped, c)

/-- Reads a numeral whose sign, if any, has been read. A zero stands alone before
    the point. -/
def read (c : Cursor) (negative : Bool) : Except DocumentError (Numeral × Cursor) :=
  match c.span Char.isDigit with
  | ([], _) => if c.rest.isEmpty then c.failHere .endInValue else c.failNext .invalidNumber
  | ('0' :: _ :: _, _) => .error ⟨.invalidNumber, c.place.afterBytes 2 c.rest⟩
  | (digits, after) =>
      let (significand, dropped) := wholePart digits
      readRest after negative significand dropped

/-! ### How far is read -/

theorem length_readDirection_le (c : Cursor) :
    (readDirection c).2.rest.length ≤ c.rest.length := by
  unfold readDirection
  split <;> simp

theorem length_of_readExponent {c d : Cursor} {negative : Bool} {significand : Nat}
    {exponent : Int} {n : Numeral} (h : readExponent c negative significand exponent = .ok (n, d)) :
    d.rest.length ≤ c.rest.length := by
  have hd := (readDirection c).2.length_span_le Char.isDigit
  have hc := length_readDirection_le c
  suffices d = ((readDirection c).2.span Char.isDigit).2 by subst this; omega
  unfold readExponent at h
  dsimp only at h
  split at h
  · split at h <;> cases h
  · next digits after _ eq =>
    rw [eq]
    split at h
    · cases h; rfl
    · split at h <;> cases h
      rfl

theorem length_of_readScale {c d : Cursor} {negative : Bool} {significand : Nat}
    {exponent : Int} {n : Numeral} (h : readScale c negative significand exponent = .ok (n, d)) :
    d.rest.length ≤ c.rest.length := by
  unfold readScale at h
  split at h
  · exact Nat.le_succ_of_le (length_of_readExponent h)
  · exact Nat.le_succ_of_le (length_of_readExponent h)
  · cases h; exact Nat.le_refl _

theorem length_of_readRest {c d : Cursor} {negative : Bool} {significand dropped : Nat}
    {n : Numeral} (h : readRest c negative significand dropped = .ok (n, d)) :
    d.rest.length ≤ c.rest.length := by
  unfold readRest at h
  split at h
  · next rest place =>
    have hd := (Cursor.mk rest (place.after '.')).length_span_le Char.isDigit
    dsimp only at h hd
    split at h
    · split at h <;> cases h
    · next eq =>
      rw [eq] at hd
      have := length_of_readScale h
      simp only [List.length_cons] at hd ⊢
      omega
  · exact length_of_readScale h
  · exact length_of_readScale h
  · split at h <;> cases h <;> exact Nat.le_refl _

theorem length_of_read {c d : Cursor} {negative : Bool} {n : Numeral}
    (h : read c negative = .ok (n, d)) : d.rest.length < c.rest.length := by
  unfold read at h
  split at h
  · split at h <;> cases h
  · cases h
  · next digits after none _ eq =>
    have hd := length_of_readRest h
    have parts : digits.length + after.rest.length = c.rest.length := by
      simp only [Cursor.span, Prod.mk.injEq] at eq
      rw [← eq.1, ← eq.2, ← List.length_append, List.takeWhile_append_dropWhile]
    have := List.length_pos_iff.mpr none
    omega

/-! ### Values -/

/-- The largest power of ten that is scaled by at once. -/
def largestPower : Nat := 308

/-- The float nearest to a power of ten. -/
def powerOfTen (exponent : Nat) : Float :=
  Float.ofScientific 1 false exponent

/-- Divides by a power of ten, by at most the largest one at a time. -/
def scaleDown (x : Float) (exponent : Nat) : Float :=
  if exponent ≤ largestPower then x / powerOfTen exponent
  else if x == 0 then x
  else scaleDown (x / powerOfTen largestPower) (exponent - largestPower)
termination_by exponent
decreasing_by
  simp only [largestPower] at *
  omega

/-- Multiplies the significand by a power of ten, unless that is too large. -/
def scale? (significand : Nat) (exponent : Int) : Option Float :=
  let x := significand.toUInt64.toFloat
  if exponent < 0 then some (scaleDown x (-exponent).toNat)
  else if exponent ≤ largestPower then finite? (x * powerOfTen exponent.toNat)
  else if x == 0 then some x
  else none

/-- Gives a float its sign. -/
def signed (negative : Bool) (x : Float) : Float :=
  if negative then -x else x

/-- The number that a numeral stands for. Negative zero and integers below the
    least one of 64 bits become floats; integers above the largest are refused. -/
def value : Numeral → Except Fault Number
  | whole negative magnitude =>
      if negative then
        match magnitude, int64? (-magnitude) with
        | 0, _ | _, none => .ok (.float (-magnitude.toUInt64.toFloat))
        | _, some n => .ok (.integer n)
      else
        match int64? magnitude with
        | some n => .ok (.integer n)
        | none => .error (.integerOutOfRange magnitude)
  | scaled negative significand exponent =>
      match scale? significand exponent with
      | some x => .ok (.float (signed negative x))
      | none => .error .numberOutOfRange

end Numeral

/-- Reads a number whose sign, if any, has been read. -/
def readNumber (c : Cursor) (negative : Bool) : Reading Number c :=
  match h : Numeral.read c negative with
  | .error e => .error e
  | .ok (numeral, after) =>
      match numeral.value with
      | .ok n => .ok ⟨n, after, Numeral.length_of_read h⟩
      | .error fault => after.failHere fault

end TreeWalk.Json
