-- SUMMARY: Reading a text as a document tree.
import TreeWalk.Json.Numeral
import TreeWalk.Json.Quoted
import TreeWalk.Tree.Basic

/-! # Documents

A document is one value with nothing but blanks around it. Values nest by
brackets, and `readValue` recurses on how many brackets may still be opened, so
that the limit on nesting is what ends the recursion. Lists and objects share one
reader, `readItems`, which is told by an `Enclosure` how they differ.
-/

namespace TreeWalk.Json

/-- How many brackets may be open at once. -/
def nestingLimit : Nat := 127

/-- Reads the letters of a word. -/
def readLetters (c : Cursor) : (letters : List Char) → Except DocumentError Cursor
  | [] => .ok c
  | letter :: letters =>
      match c with
      | ⟨[], _⟩ => c.failHere .endInValue
      | ⟨x :: rest, place⟩ =>
          if x = letter then readLetters ⟨rest, place.after x⟩ letters
          else c.failNext .notTheWord

theorem length_of_readLetters {letters : List Char} :
    ∀ {c d : Cursor}, readLetters c letters = .ok d → d.rest.length ≤ c.rest.length := by
  induction letters with
  | nil =>
    intro c d h
    cases h
    exact Nat.le_refl _
  | cons letter letters ih =>
    intro c d h
    unfold readLetters at h
    split at h
    · cases h
    · split at h
      · exact Nat.le_succ_of_le (ih h)
      · cases h

/-- Reads the rest of a word that stands for a value. -/
def readWord (c : Cursor) (letters : List Char) (meaning : Tree) :
    Except DocumentError { s : Tree × Cursor // s.2.rest.length ≤ c.rest.length } :=
  match h : readLetters c letters with
  | .error e => .error e
  | .ok d => .ok ⟨(meaning, d), length_of_readLetters h⟩

/-! ### Lists and objects -/

/-- What stands between two brackets. -/
structure Enclosure (α : Type) where
  closing : Char
  /-- the text ends before the closing bracket -/
  unfinished : Fault
  /-- neither a comma nor the closing bracket follows an item -/
  noSeparator : Fault
  item : (c : Cursor) → Reading α c

/-- Reads what follows an item, up to the closing bracket. -/
def readMore {α : Type} (within : Enclosure α) (c : Cursor) : Reading (List α) c :=
  match h : c.skipBlanks with
  | ⟨[], _⟩ => c.skipBlanks.failNext within.unfinished
  | ⟨x :: rest, place⟩ =>
      have shorter : rest.length < c.rest.length := by
        have := c.length_skipBlanks_le
        simp only [h, List.length_cons] at this
        omega
      let d : Cursor := ⟨rest, place.after x⟩
      if x = within.closing then
        .ok ⟨[], d, shorter⟩
      else if x = ',' then
        let e := d.skipBlanks
        match e.rest with
        | [] => e.failNext .endInValue
        | y :: _ =>
            if y = within.closing then
              e.failNext .trailingComma
            else do
              let item ← within.item e
              have : item.next.rest.length < c.rest.length := by
                have := item.shorter
                have : e.rest.length ≤ rest.length := d.length_skipBlanks_le
                omega
              let more ← readMore within item.next
              return ⟨item.value :: more.value, more.next, Nat.lt_trans more.shorter this⟩
      else
        c.skipBlanks.failNext within.noSeparator
termination_by c.rest.length

/-- Reads items and the closing bracket, from behind the opening one. -/
def readItems {α : Type} (within : Enclosure α) (c : Cursor) : Reading (List α) c :=
  match h : c.skipBlanks with
  | ⟨[], _⟩ => c.skipBlanks.failNext within.unfinished
  | ⟨x :: rest, place⟩ =>
      have shorter : rest.length < c.rest.length := by
        have := c.length_skipBlanks_le
        simp only [h, List.length_cons] at this
        omega
      if x = within.closing then
        .ok ⟨[], ⟨rest, place.after x⟩, shorter⟩
      else do
        let item ← within.item ⟨x :: rest, place⟩
        let more ← readMore within item.next
        return ⟨item.value :: more.value, more.next, by
          have hi : item.next.rest.length < rest.length + 1 := item.shorter
          have hm := more.shorter
          omega⟩

/-- Reads a key, a colon and the value that belongs to the key. -/
def readEntry (readValue : (c : Cursor) → Reading Tree c) (c : Cursor) :
    Reading (String × Tree) c :=
  match c with
  | ⟨'"' :: rest, place⟩ => do
      let key ← readString ⟨rest, place.after '"'⟩
      let d := key.next.skipBlanks
      have hd : d.rest.length ≤ key.next.rest.length := key.next.length_skipBlanks_le
      match hm : d with
      | ⟨[], _⟩ => d.failNext .endInObject
      | ⟨':' :: rest', place'⟩ =>
          let value ← readValue ⟨rest', place'.after ':'⟩
          return ⟨(key.value, value.value), value.next, by
            have := value.shorter; have := key.shorter
            rw [hm] at hd
            simp only [List.length_cons] at *
            omega⟩
      | ⟨_ :: _, _⟩ => d.failNext .noColon
  | c => c.failNext .keyNotAString

def listOf (readValue : (c : Cursor) → Reading Tree c) : Enclosure Tree :=
  ⟨']', .endInList, .noCommaOrBracket, readValue⟩

def objectOf (readValue : (c : Cursor) → Reading Tree c) : Enclosure (String × Tree) :=
  ⟨'\x7d', .endInObject, .noCommaOrBrace, readEntry readValue⟩

/-! ### Values -/

/-- Reads a value. Brackets are read with `inner`; without it, none may be
    opened. -/
def readValueWith (inner : Option ((c : Cursor) → Reading Tree c)) (c : Cursor) :
    Reading Tree c :=
  match h : c.skipBlanks with
  | ⟨[], _⟩ => c.skipBlanks.failNext .endInValue
  | ⟨x :: rest, place⟩ =>
      have within : rest.length + 1 ≤ c.rest.length := by
        have := c.length_skipBlanks_le
        rw [h] at this
        exact this
      let here : Cursor := ⟨x :: rest, place⟩
      let d : Cursor := ⟨rest, place.after x⟩
      let word (letters : List Char) (meaning : Tree) : Reading Tree c :=
        (readWord d letters meaning).map fun s =>
          ⟨s.1.1, s.1.2, Nat.lt_of_le_of_lt s.2 within⟩
      match x with
      | 'n' => word ['u', 'l', 'l'] .null
      | 't' => word ['r', 'u', 'e'] (.scalar (.boolean true))
      | 'f' => word ['a', 'l', 's', 'e'] (.scalar (.boolean false))
      | '"' =>
          (readString d).map fun s =>
            (s.map fun text => Tree.scalar (.string text)).behind (Nat.le_of_succ_le within)
      | '-' =>
          (readNumber d true).map fun s =>
            (s.map fun n => Tree.scalar (.number n)).behind (Nat.le_of_succ_le within)
      | '[' =>
          match inner with
          | none => here.failNext .tooDeep
          | some readValue =>
              (readItems (listOf readValue) d).map fun s =>
                (s.map Tree.list).behind (Nat.le_of_succ_le within)
      | '\x7b' =>
          match inner with
          | none => here.failNext .tooDeep
          | some readValue =>
              (readItems (objectOf readValue) d).map fun s =>
                (s.map Tree.object).behind (Nat.le_of_succ_le within)
      | _ =>
          if x.isDigit then
            (readNumber here false).map fun s =>
              (s.map fun n => Tree.scalar (.number n)).behind within
          else
            here.failNext .noValue

/-- Reads a value in which at most `nesting` brackets are open at once. -/
def readValue : (nesting : Nat) → (c : Cursor) → Reading Tree c
  | 0 => readValueWith none
  | nesting + 1 => readValueWith (some (readValue nesting))

/-- Reads a text that is one value. -/
def readDocument (text : String) : Except DocumentError Tree := do
  let document ← readValue nestingLimit (.ofString text)
  let c := document.next.skipBlanks
  if c.rest.isEmpty then return document.value else c.failNext .trailingCharacters

end TreeWalk.Json
