-- SUMMARY: Documents as trees that keep every entry.
import TreeWalk.Value

/-! # Document trees

What a document says before anyone asks whether it is a program: scalars, lists
and objects. An object keeps all its entries in the order of the document, also
those that repeat a key, because children of one kind are written that way.
-/

namespace TreeWalk

inductive Tree where
  | null
  | scalar (value : Value)
  | list (items : List Tree)
  | object (entries : List (String × Tree))
  deriving Inhabited

end TreeWalk
