-- SUMMARY: The exact value that the bits of a binary64 number stand for.

/-! # Exact values of binary64 numbers

`Binary64` is the reading of a 64-bit pattern: not a number, an infinity, or a
sign, a mantissa and a power of two. Everything that has to be exact about a
float, its decimal text and whether it is a given whole number, is worked out on
this reading with `Nat` and `Int`, and nothing there rounds.
-/

namespace TreeWalk

/-- What a binary64 number is: a finite one is `± mantissa * 2 ^ exponent`. -/
inductive Binary64 where
  | notANumber
  | infinite (negative : Bool)
  | finite (negative : Bool) (mantissa : Nat) (exponent : Int)
  deriving DecidableEq, Repr

namespace Binary64

/-- How many bits of the fraction are stored. -/
def fractionBits : Nat := 52

/-- How many bits of the exponent are stored. -/
def exponentBits : Nat := 11

/-- The power of two of the smallest step between two numbers. -/
def leastExponent : Int := -1074

/-- Reads a bit pattern: from the top a sign, an exponent and a fraction. An
    exponent of zeros leaves the fraction without its hidden leading one; an
    exponent of ones marks infinities (no fraction) and what is not a number. -/
def ofBits (bits : UInt64) : Binary64 :=
  let fraction := bits.toNat % Nat.pow 2 fractionBits
  let exponent := bits.toNat / Nat.pow 2 fractionBits % Nat.pow 2 exponentBits
  let negative := bits.toNat / Nat.pow 2 (fractionBits + exponentBits) == 1
  if exponent == Nat.pow 2 exponentBits - 1 then
    if fraction == 0 then infinite negative else notANumber
  else if exponent == 0 then
    finite negative fraction leastExponent
  else
    finite negative (Nat.pow 2 fractionBits + fraction) (leastExponent + (exponent - 1))

/-- The exact value of a float. -/
def ofFloat (x : Float) : Binary64 :=
  ofBits x.toBits

/-- A magnitude with its sign. -/
def signed (negative : Bool) (magnitude : Nat) : Int :=
  if negative then -magnitude else magnitude

/-- What stands before the point of `mantissa * 2 ^ exponent`. -/
def wholePart (mantissa : Nat) (exponent : Int) : Nat :=
  mantissa * Nat.pow 2 exponent.toNat / Nat.pow 2 (-exponent).toNat

/-- Whether the number is finite and nothing stands behind its point. -/
def isWhole : Binary64 → Bool
  | finite _ mantissa exponent => mantissa % Nat.pow 2 (-exponent).toNat == 0
  | _ => false

/-- What stands before the point, as an integer of 64 bits. Numbers beyond all
    of these become the last one on their side, and what is not a number
    becomes zero. -/
def toInt64 : Binary64 → Int64
  | notANumber => 0
  | infinite negative => if negative then Int64.minValue else Int64.maxValue
  | finite negative mantissa exponent =>
      Int64.ofIntClamp (signed negative (wholePart mantissa exponent))

end Binary64

end TreeWalk
