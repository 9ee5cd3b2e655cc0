-- SUMMARY: Values of the language: numbers, strings and booleans.
import TreeWalk.Number

/-! # Values

The three kinds of values, when a value counts as true, when two are equal, and
the two texts of a value: the one that is printed and the one that is quoted in
messages, where strings stand between quotation marks.
-/

namespace TreeWalk

inductive Value where
  | number (n : Number)
  | string (s : String)
  | boolean (b : Bool)
  deriving Inhabited

namespace Value

/-- The name of the kind of a value, as messages use it. -/
def typeName : Value → String
  | number _ => "number"
  | string _ => "string"
  | boolean _ => "boolean"

/-- The text that is printed for a value. -/
def text : Value → String
  | number n => n.text
  | string s => s
  | boolean b => if b then "true" else "false"

/-- The text of a value inside a message. A string is enclosed in quotation
    marks and otherwise left as it is. -/
def quoted : Value → String
  | string s => "\"" ++ s ++ "\""
  | v => v.text

/-- Zeros, the empty string and `false` count as false, all else as true. -/
def truthy : Value → Bool
  | number n => !n.isZero
  | string s => !s.isEmpty
  | boolean b => b

/-- Values are equal if they are of one kind and equal as such. -/
def equals : Value → Value → Bool
  | number l, number r => l == r
  | string l, string r => l == r
  | boolean l, boolean r => l == r
  | _, _ => false

instance : BEq Value where
  beq := equals

end Value

end TreeWalk
