-- SUMMARY: What a run reports while it goes on.
import TreeWalk.Closure

/-! # Events

The record of a run: one event for each step worth telling, with a level that
says to whom. A listener at one level sees the events of that level and of the
levels above it.
-/

namespace TreeWalk

inductive Level where
  | info
  | debug
  | trace
  deriving DecidableEq, Repr

def Level.text : Level → String
  | info => "INFO"
  | debug => "DEBUG"
  | trace => "TRACE"

inductive Event where
  /-- a program file has been read -/
  | read (bytes : Nat) (file : String)
  /-- a document is about to be parsed -/
  | parsing (file : String)
  /-- a program starts -/
  | executing (items : Nat)
  /-- a declaration is about to bind its variable -/
  | assigned (name : Name) (value : Value)
  /-- a definition took the place of this one -/
  | redefined (name : Name) (parameters : List Name)
  | defined (name : Name) (parameters : Nat)
  /-- a call was opened, and is the `depth`-th one open -/
  | called (name : Name) (parameters : List Name) (depth : Nat)
  /-- a call was closed without an error -/
  | returned (name : Name) (value : Option Value)
  /-- a program ended without an error -/
  | finished

namespace Event

def level : Event → Level
  | read .. | finished => .info
  | parsing .. | executing .. | redefined .. | defined .. => .debug
  | assigned .. | called .. | returned .. => .trace

/-- The part of the program that reports the event. -/
def target : Event → String
  | read .. => "arbor"
  | parsing .. | finished => "arbor::lang::runtime"
  | redefined .. => "arbor::lang::functions"
  | executing .. | assigned .. | defined .. | called .. | returned .. => "arbor::lang::eval"

def message : Event → String
  | read bytes file => "read " ++ bytes.repr ++ " bytes from " ++ file
  | parsing file => "parsing " ++ file
  | executing items => "executing program with " ++ items.repr ++ " top-level nodes"
  | assigned name value => "set " ++ name ++ " = " ++ value.quoted
  | redefined name parameters => "redefined function " ++ signature name parameters
  | defined name parameters =>
      "defined function " ++ name ++ " (" ++ parameters.repr ++ " parameters)"
  | called name parameters depth =>
      "call " ++ signature name parameters ++ " (depth " ++ depth.repr ++ ")"
  | returned name none => name ++ " returned nothing"
  | returned name (some value) => name ++ " returned " ++ value.quoted
  | finished => "program finished"

end Event

end TreeWalk
