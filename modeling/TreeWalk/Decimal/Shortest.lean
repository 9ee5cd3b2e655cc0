-- SUMMARY: The shortest decimal that reads back as a given binary64 number.
import TreeWalk.Binary64

/-! # Shortest decimals

Every binary64 number stands for an interval of reals: those that round to it.
Its shortest decimal is the point of the coarsest grid of tenths, ones, tens, …
that has a point in the interval. If a grid has one, then one of the two
neighbours of the number on that grid is one, so only those are tested, in exact
arithmetic. Of two neighbours inside, the nearer is taken, and the larger one if
they are equally near.
-/

namespace TreeWalk

/-- The number `digits * 10 ^ exponent`. -/
structure Decimal where
  digits : Nat
  exponent : Int
  deriving DecidableEq, Repr

namespace Decimal

/-- The reals that round to a positive number, in units of `2 ^ unit`: from
    `low` to `high`, with the ends if `closed`; `mid` is the number itself. -/
structure Interval where
  low : Nat
  mid : Nat
  high : Nat
  unit : Int
  closed : Bool
  deriving DecidableEq, Repr

namespace Interval

/-- The interval of `mantissa * 2 ^ exponent`. It reaches half a step to either
    side, except below the least mantissa of a power of two, where the steps are
    half as wide. Ties go to the even mantissa, which owns its ends. -/
def ofScaled (mantissa : Nat) (exponent : Int) : Interval :=
  let narrow := mantissa == Nat.pow 2 Binary64.fractionBits && exponent > Binary64.leastExponent
  { low := 4 * mantissa - if narrow then 1 else 2
    mid := 4 * mantissa
    high := 4 * mantissa + 2
    unit := exponent - 2
    closed := mantissa % 2 == 0 }

/-- The powers of two and ten with which points of a grid are compared, each on
    the side on which it is a whole number: `c * 10 ^ exponent` is in the interval
    iff `c * below` is between `low * above` and `high * above`. -/
def above (i : Interval) (exponent : Int) : Nat :=
  Nat.pow 2 i.unit.toNat * Nat.pow 10 (-exponent).toNat

@[inherit_doc above]
def below (i : Interval) (exponent : Int) : Nat :=
  Nat.pow 2 (-i.unit).toNat * Nat.pow 10 exponent.toNat

/-- Whether the point `c` of the grid of `10 ^ exponent` is in the interval. -/
def holds (i : Interval) (exponent : Int) (c : Nat) : Bool :=
  let point := c * i.below exponent
  if i.closed then
    i.low * i.above exponent ≤ point && point ≤ i.high * i.above exponent
  else
    i.low * i.above exponent < point && point < i.high * i.above exponent

/-- The point of the grid that is in the interval and nearest to its number. -/
def pointOn? (i : Interval) (exponent : Int) : Option Nat :=
  let down := i.mid * i.above exponent / i.below exponent
  let past := i.mid * i.above exponent % i.below exponent
  match i.holds exponent down, i.holds exponent (down + 1) with
  | true, true => some (if 2 * past < i.below exponent then down else down + 1)
  | true, false => some down
  | false, true => some (down + 1)
  | false, false => none

/-- Searches `steps` grids from the one of `10 ^ exponent` towards finer ones.
    The last one is taken to hold the number itself. -/
def search (i : Interval) : (steps : Nat) → (exponent : Int) → Decimal
  | 0, exponent => ⟨i.mid * i.above exponent / i.below exponent, exponent⟩
  | steps + 1, exponent =>
      match i.pointOn? exponent with
      | some c => ⟨c, exponent⟩
      | none => i.search steps (exponent - 1)

/-- A power of ten above the whole interval: `30103 / 100000` is just above the
    logarithm of two. -/
def topExponent (i : Interval) : Int :=
  (i.unit + i.high.log2 + 1) * 30103 / 100000 + 1

/-- The shortest decimal in the interval. The search ends where one unit of the
    interval is a whole number of points of the grid. -/
def shortest (i : Interval) : Decimal :=
  i.search (i.topExponent - min i.unit 0).toNat i.topExponent

end Interval

/-- The shortest decimal that reads back as `mantissa * 2 ^ exponent`. -/
def shortest (mantissa : Nat) (exponent : Int) : Decimal :=
  if mantissa == 0 then ⟨0, 0⟩ else (Interval.ofScaled mantissa exponent).shortest

/-- The decimal written out in full: no exponent, a point only where there are
    tenths, and then a zero before it if nothing else stands there. -/
def positional (d : Decimal) : String :=
  let digits := d.digits.repr.toList
  let places := (-d.exponent).toNat
  if d.exponent ≥ 0 then
    String.ofList (digits ++ List.replicate d.exponent.toNat '0')
  else if places < digits.length then
    let whole := digits.length - places
    String.ofList (digits.take whole ++ '.' :: digits.drop whole)
  else
    String.ofList ('0' :: '.' :: List.replicate (places - digits.length) '0' ++ digits)

end Decimal

end TreeWalk
