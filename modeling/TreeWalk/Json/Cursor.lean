-- SUMMARY: Places in a text, and what is left to read from a place on.

/-! # Cursors

A text is read as a list of characters, and the cursor is what is left of it
together with its place. Lines are counted in line feeds and columns in bytes of
the text's UTF-8 form, so that a place may lie inside a character.

A `Step` is the result of reading something: the value, the cursor behind it, and
the fact that the cursor has moved. Readers recurse on what is left.
-/

namespace TreeWalk.Json

/-- A place between two bytes: the number of the line, from one, and the number
    of bytes between its start and the place. -/
structure Place where
  line : Nat
  column : Nat
  deriving DecidableEq, Repr

namespace Place

def start : Place :=
  ⟨1, 0⟩

/-- The place behind a character. -/
def after (p : Place) (c : Char) : Place :=
  if c = '\n' then ⟨p.line + 1, 0⟩ else ⟨p.line, p.column + c.utf8Size⟩

/-- The place `count` bytes further on in a text, or its end if it is nearer. -/
def afterBytes (p : Place) (count : Nat) : List Char → Place
  | [] => p
  | c :: rest =>
      if count = 0 then p
      else if c.utf8Size ≤ count then (p.after c).afterBytes (count - c.utf8Size) rest
      else ⟨p.line, p.column + count⟩

end Place

structure Cursor where
  rest : List Char
  place : Place

namespace Cursor

def ofString (text : String) : Cursor :=
  ⟨text.toList, .start⟩

/-- One byte further: behind the first byte of what comes next, or here if
    nothing does. -/
def next (c : Cursor) : Place :=
  c.place.afterBytes 1 c.rest

/-- Reads as long as the characters are in a class. -/
def span (c : Cursor) (inClass : Char → Bool) : List Char × Cursor :=
  (c.rest.takeWhile inClass,
    ⟨c.rest.dropWhile inClass, (c.rest.takeWhile inClass).foldl Place.after c.place⟩)

theorem length_span_le (c : Cursor) (inClass : Char → Bool) :
    (c.span inClass).2.rest.length ≤ c.rest.length :=
  (List.dropWhile_suffix inClass).length_le

/-- The four characters that may stand between any two parts of a document. -/
def isBlank (c : Char) : Bool :=
  c == ' ' || c == '\t' || c == '\n' || c == '\r'

def skipBlanks (c : Cursor) : Cursor :=
  (c.span isBlank).2

theorem length_skipBlanks_le (c : Cursor) : c.skipBlanks.rest.length ≤ c.rest.length :=
  c.length_span_le isBlank

end Cursor

/-- Something read from a cursor on. -/
structure Step (α : Type) (c : Cursor) where
  value : α
  next : Cursor
  shorter : next.rest.length < c.rest.length

namespace Step

variable {α β : Type}

def map {c : Cursor} (f : α → β) (s : Step α c) : Step β c :=
  ⟨f s.value, s.next, s.shorter⟩

/-- What is read behind something else is also read from where that starts. -/
def behind {c d : Cursor} (s : Step α d) (h : d.rest.length ≤ c.rest.length) : Step α c :=
  ⟨s.value, s.next, Nat.lt_of_lt_of_le s.shorter h⟩

end Step

end TreeWalk.Json
