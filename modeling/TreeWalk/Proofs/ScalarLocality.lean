-- SUMMARY: Strings, numerals and words are read the same wherever they stand.
import TreeWalk.Proofs.Locality

/-! # Locality of scalars

Each reader of `Json` is brought into plain form, as a composition of smaller readers, and
the rules for `LocalAt` are applied along it. A string or a word ends by itself; a numeral
ends where nothing continues it.
-/

namespace TreeWalk.Json

variable {α : Type}

/-! ## Strings -/

theorem readUnit_local (c : Cursor) : LocalAt noChar (fun c => (readUnit c).plain) c := by
  intro a d h
  obtain ⟨text, place⟩ := c
  match text with
  | x :: y :: z :: w :: rest =>
    simp only [readUnit] at h
    cases hunit : hexUnit? x y z w with
    | none => simp [hunit] at h
    | some unit =>
      simp only [hunit, Reading.plain_ok, Except.ok.injEq, Prod.mk.injEq] at h
      obtain ⟨rfl, rfl⟩ := h
      exact ⟨[x, y, z, w], rfl, fun rest place _ => by simp [readUnit, hunit]⟩
  | [] | [_] | [_, _] | [_, _, _] => simp [readUnit] at h

theorem readMark_local (mark : Char) (c : Cursor) :
    LocalAt noChar (fun c => (readMark c mark).plain) c := by
  obtain ⟨text, place⟩ := c
  cases text with
  | nil => exact .of_error (by simp [readMark, Cursor.failHere])
  | cons x rest =>
    by_cases hx : x = mark
    · exact .first (fun rest place => by simp [readMark, hx]) (.pure ())
    · exact .of_error (by simp [readMark, hx, Cursor.failNext])

/-- What is made of the first unit of an escape. -/
def afterUnit (unit : Nat) : Reader Char := fun d =>
  if isLowSurrogate unit then d.failHere .loneSurrogate
  else if isHighSurrogate unit then do
    let backslash ← (readMark d '\\').plain
    let letter ← (readMark backslash.2 'u').plain
    let low ← (readUnit letter.2).plain
    if isLowSurrogate low.1 then .ok (pairChar unit low.1, low.2)
    else low.2.failHere .loneSurrogate
  else .ok (Char.ofNat unit, d)

theorem readUnicode_plain (c : Cursor) :
    (readUnicode c).plain = (readUnit c).plain >>= fun s => afterUnit s.1 s.2 := by
  refine Reading.plain_bind fun unit => ?_
  unfold afterUnit
  split
  · rfl
  split
  · refine Reading.plain_bind fun backslash => ?_
    refine Reading.plain_bind fun letter => ?_
    refine Reading.plain_bind fun low => ?_
    by_cases hlow : isLowSurrogate low.value
    · simp [hlow, Pure.pure, Except.pure]
    · simp [hlow, Cursor.failHere]
  · rfl

theorem afterUnit_local (unit : Nat) (d : Cursor) : LocalAt noChar (afterUnit unit) d := by
  unfold afterUnit
  split
  · exact .of_error (by simp [Cursor.failHere])
  split
  · refine (readMark_local '\\' _).bind_noChar fun _ d _ => ?_
    refine (readMark_local 'u' d).bind_noChar fun _ d _ => ?_
    refine (readUnit_local d).bind_noChar fun low d _ => ?_
    by_cases hlow : isLowSurrogate low
    · simp only [hlow, if_true]
      exact .pure _
    · exact .of_error (by simp [hlow, Cursor.failHere])
  · exact .pure _

theorem readUnicode_local (c : Cursor) : LocalAt noChar (fun c => (readUnicode c).plain) c :=
  .congr (fun c _ => by rw [readUnicode_plain])
    ((readUnit_local c).bind_noChar fun _ _ _ => afterUnit_local _ _)

theorem readEscape_local (c : Cursor) : LocalAt noChar (fun c => (readEscape c).plain) c := by
  obtain ⟨text, place⟩ := c
  cases text with
  | nil => exact .of_error (by simp [readEscape, Cursor.failHere])
  | cons x rest =>
    by_cases hx : x = 'u'
    · subst hx
      exact .first (fun rest place => by simp [readEscape]) (readUnicode_local _)
    · cases hletter : letterEscape? x with
      | none => exact .of_error (by simp [readEscape, hletter, Cursor.failNext])
      | some y => exact .first (fun rest place => by simp [readEscape, hletter]) (.pure y)

theorem readCharacters_quote (rest : List Char) (place : Place) (read : List Char) :
    (readCharacters ⟨'"' :: rest, place⟩ read).plain =
      .ok (String.ofList read.reverse, ⟨rest, place.after '"'⟩) := by
  rw [readCharacters]
  simp

theorem readCharacters_backslash (rest : List Char) (place : Place) (read : List Char) :
    (readCharacters ⟨'\\' :: rest, place⟩ read).plain =
      (readEscape ⟨rest, place.after '\\'⟩).plain >>= fun s =>
        (readCharacters s.2 (s.1 :: read)).plain := by
  rw [readCharacters]
  refine Reading.plain_bind fun escape => ?_
  exact Reading.plain_map_behind _ _

theorem readCharacters_plain {x : Char} (hquote : x ≠ '"') (hbackslash : x ≠ '\\')
    (hcontrol : ¬ x < ' ') (rest : List Char) (place : Place) (read : List Char) :
    (readCharacters ⟨x :: rest, place⟩ read).plain =
      (readCharacters ⟨rest, place.after x⟩ (x :: read)).plain := by
  rw [readCharacters]
  simp [hquote, hbackslash, hcontrol]

theorem readCharacters_local (c : Cursor) (read : List Char) :
    LocalAt noChar (fun c => (readCharacters c read).plain) c := by
  obtain ⟨text, place⟩ := c
  cases text with
  | nil => exact .of_error (by simp [readCharacters, Cursor.failHere])
  | cons x rest =>
    by_cases hquote : x = '"'
    · subst hquote
      exact .first (fun rest place => readCharacters_quote rest place read) (.pure _)
    by_cases hbackslash : x = '\\'
    · subst hbackslash
      refine .first (g := fun c => (readEscape c).plain >>= fun s =>
        (readCharacters s.2 (s.1 :: read)).plain)
        (fun rest place => readCharacters_backslash rest place read) ?_
      refine (readEscape_local _).bind_noChar fun x d h => ?_
      have shorter : d.rest.length < rest.length := Reading.shorter_of_plain h
      exact readCharacters_local d _
    by_cases hcontrol : x < ' '
    · exact .of_error (by
        rw [readCharacters]
        simp [hquote, hbackslash, hcontrol, Cursor.failNext])
    · exact .first (fun rest place => readCharacters_plain hquote hbackslash hcontrol rest place _)
        (readCharacters_local _ _)
termination_by c.rest.length
decreasing_by
  all_goals simp only [List.length_cons]; omega

/-! ## Numerals -/

/-- Reads digits, of which there must be one. -/
def someDigits : Reader (List Char) := fun c =>
  match c.span Char.isDigit with
  | ([], _) => if c.rest.isEmpty then c.failHere .endInValue else c.failNext .invalidNumber
  | (digits, after) => .ok (digits, after)

theorem someDigits_eq_ok {c : Cursor} {digits : List Char} {d : Cursor}
    (h : someDigits c = .ok (digits, d)) : digits ≠ [] ∧ c.span Char.isDigit = (digits, d) := by
  unfold someDigits at h
  split at h
  · split at h <;> cases h
  · next _ after hne heq =>
    cases h
    exact ⟨hne, heq⟩

theorem someDigits_append {digits rest : List Char} (hne : digits ≠ [])
    (hdigits : ∀ x ∈ digits, x.isDigit) (hrest : NotFirst Char.isDigit rest) (place : Place) :
    someDigits ⟨digits ++ rest, place⟩ = .ok (digits, ⟨rest, digits.foldl Place.after place⟩) := by
  unfold someDigits
  rw [span_append hdigits hrest]
  cases digits with
  | nil => exact absurd rfl hne
  | cons x digits => rfl

theorem someDigits_local (c : Cursor) : LocalAt Char.isDigit someDigits c := by
  intro digits d h
  obtain ⟨hne, hspan⟩ := someDigits_eq_ok h
  obtain ⟨hrest, hdigits, -, -⟩ := span_spec hspan
  exact ⟨digits, hrest, fun rest place hstop => someDigits_append hne hdigits hstop place⟩

/-- Reading digits and then something else. -/
theorem LocalAt.digits {g : List Char × Cursor → Except DocumentError (α × Cursor)} {c : Cursor}
    (hg : ∀ digits d, LocalAt continuesNumeral (fun d => g (digits, d)) d) :
    LocalAt continuesNumeral (fun c => someDigits c >>= g) c :=
  (someDigits_local c).bind (fun digits d _ => hg digits d)
    (fun x hx => by simp [continuesNumeral, hx])
    fun _ _ _ _ h _ => (span_spec (someDigits_eq_ok h).2).2.2.1

namespace Numeral

/-- What is made of the digits of an exponent. -/
def ofExponent (down negative : Bool) (significand : Nat) (exponent : Int) (digits : List Char) :
    Except Fault Numeral :=
  match exponentPart 0 0 digits with
  | .ok value =>
      .ok (scaled negative significand (if down then exponent - value else exponent + value))
  | .error _ =>
      if significand ≠ 0 ∧ !down then .error .numberOutOfRange else .ok (scaled negative 0 0)

/-- The reading of an exponent behind its sign. -/
def exponentDigits (down negative : Bool) (significand : Nat) (exponent : Int) : Reader Numeral :=
  fun c => someDigits c >>= fun s =>
    Reader.settle (ofExponent down negative significand exponent s.1) s.2

theorem readExponent_eq_ok (c : Cursor) (negative : Bool) (significand : Nat) (exponent : Int)
    (s : Numeral × Cursor) :
    readExponent c negative significand exponent = .ok s ↔
      exponentDigits (readDirection c).1 negative significand exponent (readDirection c).2 =
        .ok s := by
  unfold readExponent exponentDigits someDigits
  dsimp only
  match (readDirection c).2.span Char.isDigit with
  | ([], after) =>
    dsimp only
    split <;> simp [Cursor.failHere, Cursor.failNext, Bind.bind, Except.bind]
  | (x :: digits, after) =>
    simp only [Bind.bind, Except.bind, ofExponent]
    cases exponentPart 0 0 (x :: digits) with
    | ok value => simp [Reader.settle]
    | error read => dsimp only; split <;> simp [Reader.settle, Cursor.failHere]

theorem exponentDigits_local (down negative : Bool) (significand : Nat) (exponent : Int)
    (c : Cursor) :
    LocalAt continuesNumeral (exponentDigits down negative significand exponent) c :=
  .digits fun _ d => .settle _ d

theorem readExponent_local (negative : Bool) (significand : Nat) (exponent : Int) (c : Cursor) :
    LocalAt continuesNumeral (fun c => readExponent c negative significand exponent) c := by
  refine .congr (fun c s => readExponent_eq_ok c negative significand exponent s) ?_
  have hnil : ∀ place s, exponentDigits false negative significand exponent ⟨[], place⟩ ≠ .ok s :=
    nofun
  obtain ⟨text, place⟩ := c
  cases text with
  | nil => exact .of_error fun a d => hnil place (a, d)
  | cons x rest =>
    by_cases hplus : x = '+'
    · subst hplus
      exact .first (fun _ _ => rfl) (exponentDigits_local false _ _ _ _)
    by_cases hminus : x = '-'
    · subst hminus
      exact .first (fun _ _ => rfl) (exponentDigits_local true _ _ _ _)
    · refine .of_first (fun rest place => ?_) hnil (exponentDigits_local _ _ _ _ _)
      simp [readDirection, hplus, hminus]

theorem readScale_of_notFirst {c : Cursor} (h : NotFirst continuesNumeral c.rest)
    (negative : Bool) (significand : Nat) (exponent : Int) :
    readScale c negative significand exponent = .ok (scaled negative significand exponent, c) := by
  unfold readScale
  split
  · cases h 'e' rfl
  · cases h 'E' rfl
  · rfl

theorem readScale_local (negative : Bool) (significand : Nat) (exponent : Int) (c : Cursor) :
    LocalAt continuesNumeral (fun c => readScale c negative significand exponent) c := by
  obtain ⟨text, place⟩ := c
  cases text with
  | nil => exact .stay rfl fun d hd => readScale_of_notFirst hd _ _ _
  | cons x rest =>
    by_cases he : x = 'e'
    · subst he
      exact .first (fun _ _ => rfl) (readExponent_local _ _ _ _)
    by_cases hE : x = 'E'
    · subst hE
      exact .first (fun _ _ => rfl) (readExponent_local _ _ _ _)
    · exact .stay (by simp [readScale, he, hE]) fun d hd => readScale_of_notFirst hd _ _ _

/-- The reading of what follows the whole part, behind a point. -/
def behindPoint (negative : Bool) (significand dropped : Nat) : Reader Numeral := fun c =>
  someDigits c >>= fun s =>
    readScale s.2 negative (fractionPart significand s.1).1
      (dropped - (fractionPart significand s.1).2)

theorem readRest_point (rest : List Char) (place : Place) (negative : Bool)
    (significand dropped : Nat) :
    readRest ⟨'.' :: rest, place⟩ negative significand dropped =
      behindPoint negative significand dropped ⟨rest, place.after '.'⟩ := by
  simp only [readRest, behindPoint, someDigits]
  rcases (Cursor.mk rest (place.after '.')).span Char.isDigit with ⟨_ | ⟨x, digits⟩, after⟩
  · dsimp only
    split <;> rfl
  · rfl

/-- What a numeral is whose whole part is all of it. -/
def ofWhole (negative : Bool) (significand dropped : Nat) : Numeral :=
  if dropped = 0 then whole negative significand else scaled negative significand dropped

theorem readRest_of_notFirst {c : Cursor} (h : NotFirst continuesNumeral c.rest)
    (negative : Bool) (significand dropped : Nat) :
    readRest c negative significand dropped = .ok (ofWhole negative significand dropped, c) := by
  unfold readRest ofWhole
  split
  · cases h '.' rfl
  · cases h 'e' rfl
  · cases h 'E' rfl
  · split <;> rfl

theorem readRest_local (negative : Bool) (significand dropped : Nat) (c : Cursor) :
    LocalAt continuesNumeral (fun c => readRest c negative significand dropped) c := by
  obtain ⟨text, place⟩ := c
  have hstay := fun d hd => readRest_of_notFirst (c := d) hd negative significand dropped
  cases text with
  | nil => exact .stay (hstay ⟨[], place⟩ nofun) hstay
  | cons x rest =>
    by_cases hpoint : x = '.'
    · subst hpoint
      exact .first (fun rest place => readRest_point rest place _ _ _)
        (.digits fun _ d => readScale_local _ _ _ d)
    by_cases he : x = 'e'
    · subst he
      exact .first (fun _ _ => rfl) (readExponent_local _ _ _ _)
    by_cases hE : x = 'E'
    · subst hE
      exact .first (fun _ _ => rfl) (readExponent_local _ _ _ _)
    · refine .stay ?_ hstay
      by_cases hdropped : dropped = 0 <;> simp [readRest, hpoint, he, hE, ofWhole, hdropped]

/-- A zero before other digits. -/
def leadingZero : List Char → Bool
  | '0' :: _ :: _ => true
  | _ => false

/-- What is made of the digits of the whole part. -/
def behindWhole (negative : Bool) (digits : List Char) : Reader Numeral := fun c =>
  if leadingZero digits then c.failHere .invalidNumber
  else readRest c negative (wholePart digits).1 (wholePart digits).2

theorem read_eq_ok (c : Cursor) (negative : Bool) (s : Numeral × Cursor) :
    read c negative = .ok s ↔
      (someDigits c >>= fun s => behindWhole negative s.1 s.2) = .ok s := by
  unfold read someDigits
  match c.span Char.isDigit with
  | ([], after) =>
    dsimp only
    split <;> simp [Cursor.failHere, Cursor.failNext, Bind.bind, Except.bind]
  | ([x], after) => simp [behindWhole, leadingZero, Bind.bind, Except.bind]
  | (x :: y :: digits, after) =>
    by_cases hx : x = '0'
    · subst hx
      simp [behindWhole, leadingZero, Bind.bind, Except.bind, Cursor.failHere]
    · simp [behindWhole, leadingZero, Bind.bind, Except.bind, hx]

theorem behindWhole_local (negative : Bool) (digits : List Char) (c : Cursor) :
    LocalAt continuesNumeral (behindWhole negative digits) c := by
  unfold behindWhole
  split
  · exact .of_error nofun
  · exact readRest_local _ _ _ c

theorem read_local (negative : Bool) (c : Cursor) :
    LocalAt continuesNumeral (fun c => read c negative) c :=
  .congr (fun c s => read_eq_ok c negative s) (.digits fun _ d => behindWhole_local _ _ d)

end Numeral

theorem readNumber_plain (c : Cursor) (negative : Bool) :
    (readNumber c negative).plain =
      Numeral.read c negative >>= fun s => Reader.settle s.1.value s.2 := by
  unfold readNumber
  split
  · next e h => simp only [h]; rfl
  · next numeral after h =>
    simp only [h, Bind.bind, Except.bind, Reader.settle]
    cases numeral.value <;> rfl

theorem readNumber_local (negative : Bool) (c : Cursor) :
    LocalAt continuesNumeral (fun c => (readNumber c negative).plain) c :=
  .congr (fun c s => by rw [readNumber_plain]) ((Numeral.read_local negative c).check _)

/-! ## Words -/

theorem readLetters_local (letters : List Char) (meaning : α) (c : Cursor) :
    LocalAt noChar (fun c => (readLetters c letters).map (Prod.mk meaning)) c := by
  induction letters generalizing c with
  | nil => exact .pure meaning
  | cons letter letters ih =>
    obtain ⟨text, place⟩ := c
    cases text with
    | nil => exact .of_error (by simp [readLetters, Cursor.failHere, Except.map])
    | cons x rest =>
      by_cases hx : x = letter
      · exact .first (fun rest place => by simp [readLetters, hx]) (ih _)
      · exact .of_error (by simp [readLetters, hx, Cursor.failNext, Except.map])

end TreeWalk.Json
