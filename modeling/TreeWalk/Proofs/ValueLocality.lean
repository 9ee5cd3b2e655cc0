-- SUMMARY: Values, lists and objects are read the same wherever they stand.
import Mathlib.Data.Nat.Init
import TreeWalk.Proofs.ScalarLocality

/-! # Locality of values

The readers of lists, objects and values in plain form. Blanks come first in each of them, so
each is split into skipping blanks and what is done at the first other character.
-/

namespace TreeWalk.Json

variable {α : Type}

/-! ## Lists and objects -/

section

variable (within : Enclosure α)

/-- Reads an item and what follows it, up to the closing bracket. -/
def itemsFrom : Reader (List α) := fun c => do
  let item ← (within.item c).plain
  let more ← (readMore within item.2).plain
  return (item.1 :: more.1, more.2)

/-- The reading of what follows a comma, from the first character that is not blank. -/
def behindComma : Reader (List α) := fun c =>
  match c.rest with
  | [] => c.failNext .endInValue
  | x :: _ => if x = within.closing then c.failNext .trailingComma else itemsFrom within c

/-- The reading of what follows an item, from the first character that is not blank. -/
def behindItem : Reader (List α) := fun c =>
  match c with
  | ⟨[], _⟩ => c.failNext within.unfinished
  | ⟨x :: rest, place⟩ =>
      if x = within.closing then .ok ([], ⟨rest, place.after x⟩)
      else if x = ',' then behindComma within (Cursor.mk rest (place.after x)).skipBlanks
      else c.failNext within.noSeparator

theorem readMore_plain (c : Cursor) :
    (readMore within c).plain = behindItem within c.skipBlanks := by
  rw [readMore]
  split
  · next place h => simp only [h, behindItem]; rfl
  · next x rest place h =>
    simp only [h, behindItem]
    split
    · rfl
    split
    · unfold behindComma
      cases hrest : (Cursor.mk rest (place.after x)).skipBlanks.rest with
      | nil => rfl
      | cons y text =>
        dsimp only
        split
        · rfl
        · refine Reading.plain_bind fun item => ?_
          exact Reading.plain_bind fun more => rfl
    · rfl

/-- The reading of what follows an opening bracket, from the first character that is not
    blank. -/
def behindOpening : Reader (List α) := fun c =>
  match c with
  | ⟨[], _⟩ => c.failNext within.unfinished
  | ⟨x :: rest, place⟩ =>
      if x = within.closing then .ok ([], ⟨rest, place.after x⟩) else itemsFrom within c

theorem readItems_plain (c : Cursor) :
    (readItems within c).plain = behindOpening within c.skipBlanks := by
  rw [readItems]
  split
  · next place h => simp only [h, behindOpening]; rfl
  · next x rest place h =>
    simp only [h, behindOpening]
    split
    · rfl
    · refine Reading.plain_bind fun item => ?_
      exact Reading.plain_bind fun more => rfl

variable {within}

theorem itemsFrom_nil (place : Place) (s : List α × Cursor) :
    itemsFrom within ⟨[], place⟩ ≠ .ok s := by
  intro h
  unfold itemsFrom at h
  cases hitem : (within.item ⟨[], place⟩).plain with
  | error e => simp [hitem, Bind.bind, Except.bind] at h
  | ok item => exact Reading.plain_nil _ _ hitem

theorem continuesNumeral_of_isBlank {x : Char} (h : Cursor.isBlank x) :
    continuesNumeral x = false := by
  simp only [Cursor.isBlank, Bool.or_eq_true, beq_iff_eq] at h
  rcases h with ((rfl | rfl) | rfl) | rfl <;> rfl

theorem notFirst_of_skipBlanks {c : Cursor} (h : NotFirst continuesNumeral c.skipBlanks.rest) :
    NotFirst continuesNumeral c.rest := by
  cases hspan : c.span Cursor.isBlank with
  | mk blanks e =>
    obtain ⟨happend, hblanks, -, -⟩ := span_spec hspan
    rw [Cursor.skipBlanks, hspan] at h
    rw [happend]
    cases blanks with
    | nil => exact h
    | cons x blanks =>
      intro y hy
      cases hy
      exact continuesNumeral_of_isBlank (hblanks x List.mem_cons_self)

variable (hclosing : continuesNumeral within.closing = false)

include hclosing

/-- What follows an item does not make a numeral longer. -/
theorem notFirst_of_readMore {c : Cursor} {s : List α × Cursor}
    (h : (readMore within c).plain = .ok s) : NotFirst continuesNumeral c.rest := by
  refine notFirst_of_skipBlanks ?_
  rw [readMore_plain] at h
  unfold behindItem at h
  split at h
  · cases h
  · next x rest place heq =>
    rw [heq]
    intro y hy
    cases hy
    split at h
    · next hx => rwa [hx]
    split at h
    · next hx => rw [hx]; rfl
    · cases h

variable (hitem : ∀ c, LocalAt continuesNumeral (fun c => (within.item c).plain) c)

include hitem

theorem itemsFrom_local (c : Cursor)
    (hmore : ∀ d, d.rest.length < c.rest.length →
      LocalAt continuesNumeral (fun d => (readMore within d).plain) d) :
    LocalAt continuesNumeral (itemsFrom within) c := by
  refine (hitem c).bind (fun item d h => ?_) (fun _ => id) fun item d more e hd he => ?_
  · exact ((hmore d (Reading.shorter_of_plain h)).map (List.cons item)).congr fun e s => by
      cases (readMore within e).plain <;> rfl
  · cases hread : (readMore within d).plain with
    | error err => simp [hread, Bind.bind, Except.bind] at he
    | ok s => exact notFirst_of_readMore hclosing hread

theorem readMore_local (c : Cursor) :
    LocalAt continuesNumeral (fun c => (readMore within c).plain) c := by
  refine .blanks (readMore_plain within) nofun ?_
  have hskip := c.length_skipBlanks_le
  match hc : c.skipBlanks with
  | ⟨[], place⟩ => exact .of_error (by simp [behindItem, Cursor.failNext])
  | ⟨x :: rest, place⟩ =>
    by_cases hx : x = within.closing
    · exact .first (fun rest place => by simp [behindItem, hx]) (.pure [])
    by_cases hcomma : x = ','
    · subst hcomma
      refine .first (g := fun c => behindComma within c.skipBlanks)
        (fun rest place => by simp [behindItem, hx]) ?_
      refine .blanks (fun _ => rfl) nofun ?_
      have hskip' := (Cursor.mk rest (place.after ',')).length_skipBlanks_le
      match hd : (Cursor.mk rest (place.after ',')).skipBlanks with
      | ⟨[], place⟩ => exact .of_error (by simp [behindComma, Cursor.failNext])
      | ⟨y :: rest', place⟩ =>
        simp only [hc, hd, List.length_cons] at hskip hskip'
        by_cases hy : y = within.closing
        · exact .of_error (by simp [behindComma, hy, Cursor.failNext])
        · refine .of_first (g := itemsFrom within)
            (fun rest place => by simp [behindComma, hy]) itemsFrom_nil ?_
          refine itemsFrom_local hclosing hitem _ fun d hd => ?_
          have shorter : d.rest.length < c.rest.length := by
            simp only [List.length_cons] at hd
            omega
          exact readMore_local d
    · exact .of_error (by simp [behindItem, hx, hcomma, Cursor.failNext])
termination_by c.rest.length

theorem readItems_local (c : Cursor) :
    LocalAt continuesNumeral (fun c => (readItems within c).plain) c := by
  refine .blanks (readItems_plain within) nofun ?_
  match c.skipBlanks with
  | ⟨[], place⟩ => exact .of_error nofun
  | ⟨x :: rest, place⟩ =>
    by_cases hx : x = within.closing
    · exact .first (fun rest place => by simp [behindOpening, hx]) (.pure [])
    · exact .of_first (fun rest place => by simp [behindOpening, hx]) itemsFrom_nil
        (itemsFrom_local hclosing hitem _ fun d _ => readMore_local hclosing hitem d)

end

/-! ## Values -/

section

variable {read : (c : Cursor) → Reading Tree c}
  (hread : ∀ c, LocalAt continuesNumeral (fun c => (read c).plain) c)

/-- The reading of what follows a key, from the first character that is not blank. -/
def behindKey (read : (c : Cursor) → Reading Tree c) (key : String) : Reader (String × Tree) :=
  fun c =>
    match c with
    | ⟨[], _⟩ => c.failNext .endInObject
    | ⟨x :: rest, place⟩ =>
        if x = ':' then do
          let value ← (read ⟨rest, place.after ':'⟩).plain
          return ((key, value.1), value.2)
        else c.failNext .noColon

theorem readEntry_quote (rest : List Char) (place : Place) :
    (readEntry read ⟨'"' :: rest, place⟩).plain =
      (readString ⟨rest, place.after '"'⟩).plain >>= fun s =>
        behindKey read s.1 s.2.skipBlanks := by
  rw [readEntry]
  refine Reading.plain_bind fun key => ?_
  dsimp only
  split
  · next h => simp only [h, behindKey]; rfl
  · next h =>
    simp only [h, behindKey, if_true]
    exact Reading.plain_bind fun value => rfl
  · next x rest place hx h =>
    simp only [h, behindKey, if_neg hx]
    rfl

theorem readEntry_of_ne {x : Char} (hx : x ≠ '"') (rest : List Char) (place : Place)
    (s : (String × Tree) × Cursor) : (readEntry read ⟨x :: rest, place⟩).plain ≠ .ok s := by
  simp [readEntry, hx, Cursor.failNext]

include hread

theorem readEntry_local (c : Cursor) :
    LocalAt continuesNumeral (fun c => (readEntry read c).plain) c := by
  obtain ⟨text, place⟩ := c
  cases text with
  | nil => exact .of_error nofun
  | cons x rest =>
    by_cases hx : x = '"'
    · subst hx
      refine .first (g := fun c => (readString c).plain >>= fun s =>
        behindKey read s.1 s.2.skipBlanks) readEntry_quote ?_
      refine (readCharacters_local _ []).bind_noChar fun key d _ => ?_
      refine .blanks (g := behindKey read key) (fun _ => rfl) nofun ?_
      match d.skipBlanks with
      | ⟨[], place⟩ => exact .of_error nofun
      | ⟨x :: rest, place⟩ =>
        by_cases hx : x = ':'
        · subst hx
          refine .first (fun rest place => ?_) ((hread _).map (Prod.mk key))
          simp only [behindKey, if_true]
          cases (read ⟨rest, place.after ':'⟩).plain <;> rfl
        · exact .of_error (by simp [behindKey, hx, Cursor.failNext])
    · exact .of_error fun a d => readEntry_of_ne hx rest place (a, d)

end

/-- The reading of a value from its first character. -/
def valueHere (inner : Option ((c : Cursor) → Reading Tree c)) : Reader Tree := fun c =>
  match c with
  | ⟨[], _⟩ => c.failNext .endInValue
  | ⟨x :: rest, place⟩ =>
      let d : Cursor := ⟨rest, place.after x⟩
      match x with
      | 'n' => (readLetters d ['u', 'l', 'l']).map (Prod.mk Tree.null)
      | 't' => (readLetters d ['r', 'u', 'e']).map (Prod.mk (.scalar (.boolean true)))
      | 'f' => (readLetters d ['a', 'l', 's', 'e']).map (Prod.mk (.scalar (.boolean false)))
      | '"' => (readString d).plain.map fun s => (.scalar (.string s.1), s.2)
      | '-' => (readNumber d true).plain.map fun s => (.scalar (.number s.1), s.2)
      | '[' =>
          match inner with
          | none => c.failNext .tooDeep
          | some read => (readItems (listOf read) d).plain.map fun s => (.list s.1, s.2)
      | '\x7b' =>
          match inner with
          | none => c.failNext .tooDeep
          | some read => (readItems (objectOf read) d).plain.map fun s => (.object s.1, s.2)
      | _ =>
          if x.isDigit then
            (readNumber ⟨x :: rest, place⟩ false).plain.map fun s => (.scalar (.number s.1), s.2)
          else c.failNext .noValue

theorem readWord_plain (d : Cursor) (letters : List Char) (meaning : Tree) {c : Cursor}
    {f : { s : Tree × Cursor // s.2.rest.length ≤ d.rest.length } → Step Tree c}
    (hf : ∀ s, ((f s).value, (f s).next) = s.1) :
    Reading.plain ((readWord d letters meaning).map f) =
      (readLetters d letters).map (Prod.mk meaning) := by
  unfold readWord
  split
  · next e heq => simp [heq, Except.map]
  · next e heq => simp [heq, Except.map, hf]

theorem readValueWith_plain (inner : Option ((c : Cursor) → Reading Tree c)) (c : Cursor) :
    (readValueWith inner c).plain = valueHere inner c.skipBlanks := by
  unfold readValueWith
  split
  · next h => simp only [h, valueHere]; rfl
  · next x rest place h =>
    simp only [h, valueHere]
    by_cases hn : x = 'n'
    · subst hn
      exact readWord_plain ⟨rest, place.after 'n'⟩ ['u', 'l', 'l'] _ fun _ => rfl
    by_cases ht : x = 't'
    · subst ht
      exact readWord_plain ⟨rest, place.after 't'⟩ ['r', 'u', 'e'] _ fun _ => rfl
    by_cases hf : x = 'f'
    · subst hf
      exact readWord_plain ⟨rest, place.after 'f'⟩ ['a', 'l', 's', 'e'] _ fun _ => rfl
    by_cases hquote : x = '"'
    · subst hquote
      exact Reading.plain_map _ fun _ => rfl
    by_cases hminus : x = '-'
    · subst hminus
      exact Reading.plain_map _ fun _ => rfl
    by_cases hlist : x = '['
    · subst hlist
      cases inner with
      | none => rfl
      | some read => exact Reading.plain_map _ fun _ => rfl
    by_cases hobject : x = '\x7b'
    · subst hobject
      cases inner with
      | none => rfl
      | some read => exact Reading.plain_map _ fun _ => rfl
    split <;> try contradiction
    split <;> split <;> try contradiction
    · exact Reading.plain_map _ fun _ => rfl
    · rfl

theorem valueHere_digit {x : Char} (hx : x.isDigit)
    (inner : Option ((c : Cursor) → Reading Tree c)) (rest : List Char) (place : Place) :
    valueHere inner ⟨x :: rest, place⟩ =
      (readNumber ⟨x :: rest, place⟩ false).plain.map fun s => (.scalar (.number s.1), s.2) := by
  simp only [valueHere]
  split
  iterate 7
    · exact absurd hx (by decide)
  · exact if_pos hx

section

variable {inner : Option ((c : Cursor) → Reading Tree c)}
  (hinner : ∀ read ∈ inner, ∀ c, LocalAt continuesNumeral (fun c => (read c).plain) c)

include hinner

theorem valueHere_local (c : Cursor) : LocalAt continuesNumeral (valueHere inner) c := by
  have hword := fun letters (meaning : Tree) c =>
    (readLetters_local letters meaning c).any (q := continuesNumeral)
  obtain ⟨text, place⟩ := c
  cases text with
  | nil => exact .of_error nofun
  | cons x rest =>
    by_cases hn : x = 'n'
    · subst hn
      exact .first (fun _ _ => rfl) (hword _ _ _)
    by_cases ht : x = 't'
    · subst ht
      exact .first (fun _ _ => rfl) (hword _ _ _)
    by_cases hf : x = 'f'
    · subst hf
      exact .first (fun _ _ => rfl) (hword _ _ _)
    by_cases hquote : x = '"'
    · subst hquote
      exact .first (fun _ _ => rfl)
        ((readCharacters_local _ []).map fun s => Tree.scalar (.string s)).any
    by_cases hminus : x = '-'
    · subst hminus
      exact .first (fun _ _ => rfl)
        ((readNumber_local true _).map fun n => Tree.scalar (.number n))
    by_cases hlist : x = '['
    · subst hlist
      cases inner with
      | none => exact .of_error nofun
      | some read =>
        exact .first (fun _ _ => rfl) ((readItems_local rfl (hinner read rfl) _).map Tree.list)
    by_cases hobject : x = '\x7b'
    · subst hobject
      cases inner with
      | none => exact .of_error nofun
      | some read =>
        exact .first (fun _ _ => rfl)
          ((readItems_local rfl (readEntry_local (hinner read rfl)) _).map Tree.object)
    by_cases hdigit : x.isDigit
    · refine .of_first (g := fun c =>
        (readNumber c false).plain.map fun s => (.scalar (.number s.1), s.2)) ?_ nofun
        ((readNumber_local false _).map fun n => Tree.scalar (.number n))
      exact valueHere_digit hdigit inner
    · refine .of_error ?_
      simp [valueHere, hdigit, Cursor.failNext]

theorem readValueWith_local (c : Cursor) :
    LocalAt continuesNumeral (fun c => (readValueWith inner c).plain) c :=
  .blanks (readValueWith_plain inner) nofun (valueHere_local hinner _)

end

/-- A value is read the same wherever it stands and whatever follows it, if that does not
    continue a numeral. -/
theorem readValue_local (nesting : Nat) (c : Cursor) :
    LocalAt continuesNumeral (fun c => (readValue nesting c).plain) c := by
  induction nesting generalizing c with
  | zero => exact readValueWith_local (by simp) c
  | succ nesting ih =>
    refine readValueWith_local (fun read hread => ?_) c
    cases hread
    exact ih

end TreeWalk.Json
