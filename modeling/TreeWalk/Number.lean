-- SUMMARY: Numbers: 64-bit integers and floats, their arithmetic, equality and text.
import TreeWalk.Decimal.Shortest

/-! # Numbers

A number is an integer of 64 bits until it meets a float. Sums and differences
are exact on integers and rounded as soon as one side is a float; a result that
does not fit, or is not finite, does not exist, and the caller says which error
that is. Equality never rounds: an integer equals a float only if the float is
exactly that integer.
-/

namespace TreeWalk

/-- The integer of 64 bits with this value, if there is one. -/
def int64? (n : Int) : Option Int64 :=
  if Int64.minValue.toInt ≤ n ∧ n ≤ Int64.maxValue.toInt then some (Int64.ofInt n) else none

/-- The float nearest to an integer; of two equally near ones, the even one. -/
def nearestFloat (n : Int64) : Float :=
  let magnitude := n.toInt.natAbs.toUInt64.toFloat
  if n < 0 then -magnitude else magnitude

/-- A float that is a number of finite size. -/
def finite? (x : Float) : Option Float :=
  if x.isFinite then some x else none

/-- The least integer of 64 bits, as a float. -/
def leastInteger : Float := -9223372036854775808.0

/-- The least float above all integers of 64 bits. -/
def integerBound : Float := 9223372036854775808.0

inductive Number where
  | integer (n : Int64)
  | float (x : Float)
  deriving Inhabited

namespace Number

/-- The number as a float, rounded if it is an integer that no float holds. -/
def toFloat : Number → Float
  | integer n => nearestFloat n
  | float x => x

/-- Both zeros of the floats are zero. -/
def isZero : Number → Bool
  | integer n => n == 0
  | float x => x == 0

/-- The sum, unless it overflows. -/
def add? : Number → Number → Option Number
  | integer l, integer r => (int64? (l.toInt + r.toInt)).map integer
  | l, r => (finite? (l.toFloat + r.toFloat)).map float

/-- The difference, unless it overflows. -/
def sub? : Number → Number → Option Number
  | integer l, integer r => (int64? (l.toInt - r.toInt)).map integer
  | l, r => (finite? (l.toFloat - r.toFloat)).map float

/-- Whether a float is exactly this integer. Beyond the integers of 64 bits
    `Binary64.toInt64` gives the last one of them, so the float has to lie among
    them first: their least one is a float, their greatest one is not. -/
def isExactly (n : Int64) (x : Float) : Bool :=
  x.isFinite && (Binary64.ofFloat x).isWhole && leastInteger ≤ x && x < integerBound &&
    (Binary64.ofFloat x).toInt64 == n

/-- Equality of the numbers meant. What is not a number equals nothing, itself
    included. -/
def equals : Number → Number → Bool
  | integer l, integer r => l == r
  | float l, float r => l == r
  | integer n, float x | float x, integer n => isExactly n x

instance : BEq Number where
  beq := equals

/-- What is written before a magnitude. -/
def signText (negative : Bool) : String :=
  if negative then "-" else ""

/-- The text of a float: its shortest decimal, written out in full. Whole
    numbers have no point, zero keeps its sign. -/
def floatText (x : Float) : String :=
  match Binary64.ofFloat x with
  | .notANumber => "NaN"
  | .infinite negative => signText negative ++ "inf"
  | .finite negative mantissa exponent =>
      signText negative ++ (Decimal.shortest mantissa exponent).positional

def text : Number → String
  | integer n => n.toInt.repr
  | float x => floatText x

end Number

end TreeWalk
