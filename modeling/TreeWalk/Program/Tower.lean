-- SUMMARY: Programs of any depth, one family for each way of nesting.
import TreeWalk.Program.Basic

/-! # Towers

Families of programs that nest one construct in itself a given number of times.
Documents can only nest so deep; towers are built here, and show what evaluation
does at depths that no text reaches.
-/

namespace TreeWalk

/-- What is nested in itself. -/
inductive Tower where
  /-- sums, in the left operand -/
  | plusLeft
  /-- sums, in the right operand -/
  | plusRight
  | minusLeft
  | minusRight
  | equalityLeft
  /-- sums around a variable that is not there -/
  | undefined
  /-- conditionals that hold, around one more -/
  | ifTrue
  | ifFalse
  /-- calls, in the argument -/
  | callArguments
  /-- definitions of one name, in the body -/
  | nestedDefinitions
  deriving DecidableEq, Repr

namespace Tower

private def integer (n : Int64) : Expr :=
  .literal (.number (.integer n))

private def text (s : String) : Expr :=
  .literal (.string s)

private def truth (b : Bool) : Expr :=
  .literal (.boolean b)

private def binary (operator : Operator) (left right : Expr) : Expr :=
  .builtIn [operator] [left, right]

/-- An expression around another one, `height` times from `bottom` up. -/
def stack {α : Type} (layer : α → α) (height : Nat) (bottom : α) : α :=
  Nat.repeat layer height bottom

private def returning (e : Expr) : Program :=
  ⟨[.returns e]⟩

private def conditionals (innermost : Bool) (height : Nat) : Program :=
  let bottom := [Stmt.conditional [truth innermost] [.returns (text "bottom")]]
  let body := stack (fun body => [Stmt.conditional [truth true] body]) height bottom
  ⟨[.conditional [integer 1] body, .returns (text "after")]⟩

private def define (body : List Stmt) : List Stmt :=
  [.functionDefinition (some "f") [] body, .returns (.call (some "f") [])]

/-- Each body defines `f` once more and calls it; the outermost one also declares
    the variable that the innermost one reads. -/
private def definitions (height : Nat) : Program :=
  let body := stack define height [.returns (.access (some "x"))]
  let declared : List Stmt :=
    if height = 0 then []
    else [.declaration (some "x") (some (.literal (.string "outer")))]
  ⟨[.functionDefinition (some "f") [] (declared ++ body), .returns (.call (some "f") [])]⟩

/-- The program of a tower with so many layers. -/
def program (tower : Tower) (height : Nat) : Program :=
  match tower with
  | plusLeft => returning (stack (fun e => binary .plus e (integer 1)) height (integer 1))
  | plusRight => returning (stack (fun e => binary .plus (integer 1) e) height (integer 1))
  | minusLeft => returning (stack (fun e => binary .minus e (integer 1)) height (integer 0))
  | minusRight => returning (stack (fun e => binary .minus (integer 1) e) height (integer 0))
  | equalityLeft =>
      returning (stack (fun e => binary .equality e (truth false)) height (truth false))
  | undefined =>
      returning
        (stack (fun e => binary .plus e (.call (some "nope") [])) height (.access (some "deep")))
  | ifTrue => conditionals true height
  | ifFalse => conditionals false height
  | callArguments =>
      ⟨[.functionDefinition (some "id") ["x"] [.returns (.access (some "x"))],
        .returns (stack (fun e => .call (some "id") [e]) height (integer 7))]⟩
  | nestedDefinitions => definitions height

end Tower

end TreeWalk
