-- SUMMARY: What the built-in operators compute.
import TreeWalk.RunError

/-! # Operations

The operators on values. Nothing here looks at a context.
-/

namespace TreeWalk

/-- A value used as a number. -/
def Value.asNumber : Value → Except RunError Number
  | number n => .ok n
  | v => .error (.notANumber v)

/-- The sum of two numbers. -/
def Number.add (l r : Number) : Except RunError Number :=
  match l.add? r with
  | some n => .ok n
  | none => .error (.sumOverflows l r)

/-- The difference of two numbers. -/
def Number.sub (l r : Number) : Except RunError Number :=
  match l.sub? r with
  | some n => .ok n
  | none => .error (.differenceOverflows l r)

/-- Applies an operator to values. `plus` adds numbers and joins strings, `minus`
    wants numbers and complains about the left side first, `equality` takes
    whatever there is. -/
def Operator.apply : Operator → Value → Value → Except RunError Value
  | equality, l, r => .ok (.boolean (l == r))
  | plus, .number l, .number r => (l.add r).map .number
  | plus, .string l, .string r => .ok (.string (l ++ r))
  | plus, l, r => .error (.cannotAdd l r)
  | minus, l, r => do
      let l ← l.asNumber
      let r ← r.asNumber
      return .number (← l.sub r)

/-- What is wrong with a built-in function that has not one operator and two
    operands. The operators are counted first. -/
def builtInFault : List Operator → Nat → RunError
  | [], _ => .noOperator
  | [operator], operands => .operandCount operator operands
  | operators, _ => .severalOperators operators.length

end TreeWalk
