-- SUMMARY: Reading strings and their escapes.
import TreeWalk.Json.Fault

/-! # Quoted strings

A string runs to the next quotation mark that no backslash precedes. Characters
stand for themselves, control characters excepted, and escapes for one character
each. An escape in four hexadecimal digits is a UTF-16 unit, so that characters
beyond the first plane take two of them; a unit of a pair that stands alone is an
error.
-/

namespace TreeWalk.Json

def hexDigit? (c : Char) : Option Nat :=
  if c.isDigit then some (c.toNat - '0'.toNat)
  else if 'a' ≤ c ∧ c ≤ 'f' then some (c.toNat - 'a'.toNat + 10)
  else if 'A' ≤ c ∧ c ≤ 'F' then some (c.toNat - 'A'.toNat + 10)
  else none

/-- The value of four hexadecimal digits. -/
def hexUnit? (a b c d : Char) : Option Nat := do
  return (((← hexDigit? a) * 16 + (← hexDigit? b)) * 16 + (← hexDigit? c)) * 16 + (← hexDigit? d)

/-- UTF-16 units that come first in a pair. -/
def isHighSurrogate (unit : Nat) : Bool :=
  0xD800 ≤ unit && unit < 0xDC00

/-- UTF-16 units that come second in a pair. -/
def isLowSurrogate (unit : Nat) : Bool :=
  0xDC00 ≤ unit && unit < 0xE000

/-- The character that a pair of surrogates stands for. -/
def pairChar (high low : Nat) : Char :=
  Char.ofNat (0x10000 + (high - 0xD800) * 0x400 + (low - 0xDC00))

/-- Whether the text ends within this many bytes. -/
def endsWithin (count : Nat) (rest : List Char) : Bool :=
  (rest.take count).foldl (fun bytes c => bytes + c.utf8Size) 0 < count

/-- Reads the digits of an escape. Four bytes are taken whatever they are; if
    there are fewer, the text has ended. -/
def readUnit (c : Cursor) : Reading Nat c :=
  match c with
  | ⟨a :: b :: d :: e :: rest, place⟩ =>
      match hexUnit? a b d e with
      | some unit =>
          .ok ⟨unit, ⟨rest, [a, b, d, e].foldl Place.after place⟩, by simp; omega⟩
      | none => .error ⟨.invalidEscape, place.afterBytes 4 (a :: b :: d :: e :: rest)⟩
  | ⟨rest, place⟩ =>
      .error ⟨if endsWithin 4 rest then .endInString else .invalidEscape,
        place.afterBytes 4 rest⟩

/-- Reads one character, which is wanted inside an escape. -/
def readMark (c : Cursor) (mark : Char) : Reading Unit c :=
  match c with
  | ⟨[], _⟩ => c.failHere .endInString
  | ⟨x :: rest, place⟩ =>
      if x = mark then .ok ⟨(), ⟨rest, place.after x⟩, Nat.lt_succ_self _⟩
      else c.failNext .halfASurrogatePair

/-- Reads the digits of an escape, and the second escape of a pair. -/
def readUnicode (c : Cursor) : Reading Char c := do
  let unit ← readUnit c
  if isLowSurrogate unit.value then
    unit.next.failHere .loneSurrogate
  else if isHighSurrogate unit.value then
    let backslash ← readMark unit.next '\\'
    let letter ← readMark backslash.next 'u'
    let low ← readUnit letter.next
    if isLowSurrogate low.value then
      return ⟨pairChar unit.value low.value, low.next, by
        have := unit.shorter; have := backslash.shorter
        have := letter.shorter; have := low.shorter
        omega⟩
    else
      low.next.failHere .loneSurrogate
  else
    return unit.map Char.ofNat

/-- The character of an escape that is one letter. -/
def letterEscape? : Char → Option Char
  | '"' => some '"'
  | '\\' => some '\\'
  | '/' => some '/'
  | 'b' => some '\x08'
  | 'f' => some '\x0c'
  | 'n' => some '\n'
  | 'r' => some '\r'
  | 't' => some '\t'
  | _ => none

/-- Reads what follows a backslash. -/
def readEscape (c : Cursor) : Reading Char c :=
  match c with
  | ⟨[], _⟩ => c.failHere .endInString
  | ⟨'u' :: rest, place⟩ =>
      (readUnicode ⟨rest, place.after 'u'⟩).map fun s => s.behind (Nat.le_succ _)
  | ⟨letter :: rest, place⟩ =>
      match letterEscape? letter with
      | some x => .ok ⟨x, ⟨rest, place.after letter⟩, Nat.lt_succ_self _⟩
      | none => c.failNext .invalidEscape

/-- Reads up to the closing quotation mark. The characters before it are in
    `read`, the last one first. -/
def readCharacters (c : Cursor) (read : List Char) : Reading String c :=
  match c with
  | ⟨[], _⟩ => c.failHere .endInString
  | ⟨x :: rest, place⟩ =>
      let d : Cursor := ⟨rest, place.after x⟩
      if x = '"' then
        .ok ⟨String.ofList read.reverse, d, Nat.lt_succ_self _⟩
      else if x = '\\' then do
        let escape ← readEscape d
        have : escape.next.rest.length < rest.length := escape.shorter
        let s ← readCharacters escape.next (escape.value :: read)
        return s.behind (by simp only [List.length_cons]; omega)
      else if x < ' ' then
        c.failNext .controlCharacter
      else
        (readCharacters d (x :: read)).map fun s => s.behind (Nat.le_succ _)
termination_by c.rest.length

/-- Reads a string from behind its opening quotation mark. -/
def readString (c : Cursor) : Reading String c :=
  readCharacters c []

end TreeWalk.Json
