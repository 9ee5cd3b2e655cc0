-- SUMMARY: Programs: expressions, statements and top-level items.
import TreeWalk.Tag
import TreeWalk.Value

/-! # Programs

The trees that are evaluated. A node keeps every child that its document gave
it, however many are right: evaluation counts them and names the first thing
that is wrong, and a node that is never evaluated is never wrong. What has no
meaning where it stands is kept as `malformed` (a wrapper with `count` children
in place of one) or `invalid` (a tag that does not belong there).
-/

namespace TreeWalk

/-- Names of variables and functions. -/
abbrev Name := String

inductive Operator where
  | equality
  | plus
  | minus
  deriving DecidableEq, Repr, Inhabited

namespace Operator

def all : List Operator :=
  [equality, plus, minus]

def text : Operator → String
  | equality => "=="
  | plus => "+"
  | minus => "-"

end Operator

/-- An expression. `parameter` is a literal that is written as a raw token. -/
inductive Expr where
  | literal (value : Value)
  | parameter (value : Value)
  | access (name : Option Name)
  | call (name : Option Name) (arguments : List Expr)
  | builtIn (operators : List Operator) (operands : List Expr)
  | malformed (count : Nat)
  | invalid (tag : Tag)
  deriving Inhabited

/-- What a declaration gives its variable. -/
inductive Initializer where
  | literal (value : Value)
  | expression (e : Expr)
  deriving Inhabited

inductive Stmt where
  | functionDefinition (name : Option Name) (parameters : List Name) (body : List Stmt)
  | conditional (conditions : List Expr) (body : List Stmt)
  | returns (e : Expr)
  | declaration (name : Option Name) (value : Option Initializer)
  | expression (e : Expr)
  | malformed (count : Nat)
  | invalid (tag : Tag)
  deriving Inhabited

/-- What may stand at the top of a program. -/
inductive Item where
  | functionDefinition (name : Option Name) (parameters : List Name) (body : List Stmt)
  | conditional (conditions : List Expr) (body : List Stmt)
  | returns (e : Expr)
  | invalid (tag : Tag)
  deriving Inhabited

structure Program where
  items : List Item
  deriving Inhabited

end TreeWalk
