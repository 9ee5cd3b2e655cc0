-- SUMMARY: What becomes of integers in a document, by their size.
import Mathlib.Algebra.Group.Int.Defs
import Mathlib.Algebra.Group.Nat.Defs
import TreeWalk.Program.Parse
import TreeWalk.Proofs.Site
import TreeWalk.Proofs.Slot

/-! # Integer tokens

An integer token is a numeral of digits alone, with a sign or without. What it is read as
depends on its value: integers of 64 bits are kept, except that a zero with a sign is a
float; of the others, those below `2 ^ 64` that have no sign are refused, and all others are
floats, unless they are too large even for that.

So an integer that does not fit may get into a program rounded: only the range between
`2 ^ 63` and `2 ^ 64` is checked, and a float does not tell later that it was written as an
integer.
-/

namespace TreeWalk

/-! ## Integers of 64 bits -/

theorem int64?_of_mem {n : Int} (hmin : -2 ^ 63 ≤ n) (hmax : n < 2 ^ 63) :
    ∃ k : Int64, k.toInt = n ∧ int64? n = some k := by
  refine ⟨Int64.ofInt n, Int64.toInt_ofInt_of_le hmin hmax, if_pos ⟨?_, ?_⟩⟩
  · exact hmin
  · exact Int.le_of_lt_add_one hmax

theorem int64?_of_not_mem {n : Int} (h : n < -2 ^ 63 ∨ 2 ^ 63 ≤ n) : int64? n = none := by
  refine if_neg fun hmem => ?_
  have hmin : -2 ^ 63 ≤ n := hmem.1
  have hmax : n ≤ 2 ^ 63 - 1 := hmem.2
  omega

/-! ## Tokens -/

namespace Json

/-- A numeral without a point and without an exponent. -/
structure IntegerToken where
  negative : Bool
  digits : List Char
  some_digit : digits ≠ []
  only_digits : ∀ x ∈ digits, x.isDigit
  /-- a zero stands alone -/
  no_leading_zero : Numeral.leadingZero digits = false

namespace IntegerToken

/-- The whole number that digits stand for, if `n` is what stands before them. -/
def magnitudeFrom (n : Nat) (digits : List Char) : Nat :=
  digits.foldl (fun n c => n * 10 + Numeral.digitValue c) n

variable (tok : IntegerToken)

def text : List Char :=
  if tok.negative then '-' :: tok.digits else tok.digits

def magnitude : Nat :=
  magnitudeFrom 0 tok.digits

/-- The number that the token is written for. -/
def value : Int :=
  Binary64.signed tok.negative tok.magnitude

/-- The numeral that is read. -/
def numeral : Numeral :=
  .ofWhole tok.negative (Numeral.wholePart tok.digits).1 (Numeral.wholePart tok.digits).2

/-- The number that is read, or why there is none. -/
def number : Except Fault Number :=
  tok.numeral.value

/-- The float that the digits are scaled to, if it is not too large. -/
def scaled? : Option Float :=
  (Numeral.scale? (Numeral.wholePart tok.digits).1 (Numeral.wholePart tok.digits).2).map
    (Numeral.signed tok.negative)

end IntegerToken

/-! ## The significand -/

namespace Numeral

open IntegerToken (magnitudeFrom)

theorem le_magnitudeFrom (n : Nat) (digits : List Char) : n ≤ magnitudeFrom n digits := by
  induction digits generalizing n with
  | nil => exact Nat.le_refl n
  | cons c digits ih =>
    have := ih (n * 10 + digitValue c)
    simp only [magnitudeFrom, List.foldl_cons] at this ⊢
    omega

/-- Takes a digit of the whole part into the significand. -/
def takeWhole (s : Nat × Nat) (c : Char) : Nat × Nat :=
  if s.2 = 0 ∧ s.1 * 10 + digitValue c < significandLimit then (s.1 * 10 + digitValue c, 0)
  else (s.1, s.2 + 1)

/-- Digits that fit into the significand are all in it. -/
theorem takeWhole_of_lt {n : Nat} {digits : List Char}
    (h : magnitudeFrom n digits < significandLimit) :
    digits.foldl takeWhole (n, 0) = (magnitudeFrom n digits, 0) := by
  induction digits generalizing n with
  | nil => rfl
  | cons c digits ih =>
    have hle := le_magnitudeFrom (n * 10 + digitValue c) digits
    have hlt : n * 10 + digitValue c < significandLimit := Nat.lt_of_le_of_lt hle h
    rw [List.foldl_cons, takeWhole, if_pos ⟨rfl, hlt⟩]
    exact ih h

theorem takeWhole_dropped {s : Nat × Nat} (hs : s.2 ≠ 0) (digits : List Char) :
    (digits.foldl takeWhole s).2 ≠ 0 := by
  induction digits generalizing s with
  | nil => exact hs
  | cons c digits ih =>
    refine ih ?_
    rw [takeWhole, if_neg fun h => hs h.1]
    exact Nat.succ_ne_zero _

/-- Of digits that do not fit, some are dropped. -/
theorem takeWhole_of_le {n : Nat} {digits : List Char} (hn : n < significandLimit)
    (h : significandLimit ≤ magnitudeFrom n digits) : (digits.foldl takeWhole (n, 0)).2 ≠ 0 := by
  induction digits generalizing n with
  | nil => exact absurd h (Nat.not_le.mpr hn)
  | cons c digits ih =>
    rw [List.foldl_cons, takeWhole]
    by_cases hlt : n * 10 + digitValue c < significandLimit
    · rw [if_pos ⟨rfl, hlt⟩]
      exact ih hlt h
    · rw [if_neg fun h => hlt h.2]
      exact takeWhole_dropped (Nat.succ_ne_zero _) digits

end Numeral

/-! ## Reading -/

namespace IntegerToken

variable (tok : IntegerToken)

theorem isBlank_of_isDigit {x : Char} (hx : x.isDigit) : Cursor.isBlank x = false := by
  cases hblank : Cursor.isBlank x with
  | false => rfl
  | true =>
    have := continuesNumeral_of_isBlank hblank
    simp [continuesNumeral, hx] at this

theorem opens : Opens tok.text := by
  have hdigits := tok.only_digits
  have hne := tok.some_digit
  unfold text
  split
  · exact ⟨[], '-', _, rfl, nofun, rfl, by decide, by decide⟩
  · cases h : tok.digits with
    | nil => exact absurd h hne
    | cons x digits =>
      have hx : x.isDigit := hdigits x (h ▸ List.mem_cons_self)
      refine ⟨[], x, digits, rfl, nofun, isBlank_of_isDigit hx, ?_, ?_⟩ <;> rintro rfl <;>
        exact absurd hx (by decide)

theorem read_digits {rest : List Char} (hrest : NotFirst continuesNumeral rest) (place : Place) :
    Numeral.read ⟨tok.digits ++ rest, place⟩ tok.negative =
      .ok (tok.numeral, ⟨rest, tok.digits.foldl Place.after place⟩) := by
  have hstop : NotFirst Char.isDigit rest :=
    hrest.mono fun x hx => by simp [continuesNumeral, hx]
  refine (Numeral.read_eq_ok _ _ _).mpr ?_
  rw [someDigits_append tok.some_digit tok.only_digits hstop]
  simp only [Bind.bind, Except.bind, Numeral.behindWhole, tok.no_leading_zero]
  exact Numeral.readRest_of_notFirst hrest _ _ _

theorem readNumber_digits {rest : List Char} (hrest : NotFirst continuesNumeral rest)
    (place : Place) :
    (readNumber ⟨tok.digits ++ rest, place⟩ tok.negative).plain =
      Reader.settle tok.number ⟨rest, tok.digits.foldl Place.after place⟩ := by
  rw [readNumber_plain, tok.read_digits hrest]
  rfl

theorem settle_map {α β : Type} (r : Except Fault α) (f : α → β) (c : Cursor) :
    ((Reader.settle r c).map fun s => (f s.1, s.2)) = Reader.settle (r.map f) c := by
  cases r <;> rfl

/-- The token as a value, in any place. -/
theorem readValue_text (nesting : Nat) {rest : List Char}
    (hrest : NotFirst continuesNumeral rest) (place : Place) :
    (readValue nesting ⟨tok.text ++ rest, place⟩).plain =
      Reader.settle (tok.number.map Tree.number) ⟨rest, tok.text.foldl Place.after place⟩ := by
  obtain ⟨inner, hinner⟩ := readValue_plain nesting
  rw [hinner, ← settle_map]
  cases hnegative : tok.negative with
  | true =>
    have hread := tok.readNumber_digits hrest (place.after '-')
    rw [hnegative] at hread
    simp only [text, hnegative, if_true, List.cons_append, List.foldl_cons]
    rw [skipBlanks_of_notFirst (notFirst_cons.mpr rfl), ← hread]
    rfl
  | false =>
    have hread := tok.readNumber_digits hrest place
    rw [hnegative] at hread
    simp only [text, hnegative, Bool.false_eq_true, if_false]
    rw [← hread]
    cases hdigits : tok.digits with
    | nil => exact absurd hdigits tok.some_digit
    | cons x digits =>
      have hx : x.isDigit := tok.only_digits x (hdigits ▸ List.mem_cons_self)
      rw [List.cons_append, skipBlanks_of_notFirst (notFirst_cons.mpr (isBlank_of_isDigit hx)),
        valueHere_digit hx]
      rfl

end IntegerToken

/-! ## The number that is read -/

namespace IntegerToken

variable (tok : IntegerToken)

theorem value_of_positive (h : tok.negative = false) : tok.value = tok.magnitude := by
  rw [value, Binary64.signed, h, if_neg Bool.false_ne_true]

theorem value_of_negative (h : tok.negative) : tok.value = -tok.magnitude := by
  rw [value, Binary64.signed, if_pos h]

theorem natAbs_value : tok.value.natAbs = tok.magnitude := by
  cases h : tok.negative with
  | false => rw [tok.value_of_positive h, Int.natAbs_natCast]
  | true => rw [tok.value_of_negative h, Int.natAbs_neg, Int.natAbs_natCast]

theorem numeral_of_lt (h : tok.magnitude < 2 ^ 64) :
    tok.numeral = .whole tok.negative tok.magnitude := by
  have hwhole : Numeral.wholePart tok.digits = (tok.magnitude, 0) :=
    Numeral.takeWhole_of_lt h
  rw [numeral, hwhole]
  rfl

theorem numeral_of_le (h : 2 ^ 64 ≤ tok.magnitude) :
    tok.numeral = .scaled tok.negative (Numeral.wholePart tok.digits).1
      (Numeral.wholePart tok.digits).2 := by
  have hwhole : (Numeral.wholePart tok.digits).2 ≠ 0 :=
    Numeral.takeWhole_of_le (by decide) h
  rw [numeral, Numeral.ofWhole, if_neg hwhole]

/-- An integer of 64 bits is kept, unless it is a zero with a sign. -/
theorem number_of_mem (hmin : -2 ^ 63 ≤ tok.value) (hmax : tok.value < 2 ^ 63)
    (hzero : tok.negative → tok.value ≠ 0) :
    ∃ k : Int64, k.toInt = tok.value ∧ tok.number = .ok (.integer k) := by
  obtain ⟨k, hk, hint⟩ := int64?_of_mem hmin hmax
  refine ⟨k, hk, ?_⟩
  rw [number]
  cases hnegative : tok.negative with
  | false =>
    have hvalue := tok.value_of_positive hnegative
    rw [tok.numeral_of_lt (by omega), hnegative]
    rw [hvalue] at hint
    simp only [Numeral.value, Bool.false_eq_true, if_false, hint]
  | true =>
    have hvalue := tok.value_of_negative hnegative
    have hnonzero := hzero hnegative
    rw [tok.numeral_of_lt (by omega), hnegative]
    rw [hvalue] at hint
    obtain ⟨m, hm⟩ := Nat.exists_eq_succ_of_ne_zero (n := tok.magnitude) (by omega)
    rw [hm] at hint ⊢
    simp only [Numeral.value, if_true, hint]

/-- A larger integer that fits into 64 bits without a sign is refused. -/
theorem number_of_unsigned (hmin : 2 ^ 63 ≤ tok.value) (hmax : tok.value < 2 ^ 64) :
    tok.number = .error (.integerOutOfRange tok.value.toNat) := by
  cases hnegative : tok.negative with
  | true =>
    have hvalue := tok.value_of_negative hnegative
    omega
  | false =>
    have hvalue := tok.value_of_positive hnegative
    have hint : int64? (tok.magnitude : Int) = none := int64?_of_not_mem (.inr (by omega))
    rw [number, tok.numeral_of_lt (by omega), hnegative, hvalue, Int.toNat_natCast]
    simp only [Numeral.value, Bool.false_eq_true, if_false, hint]

/-- A smaller integer that fits into 64 bits without its sign is a float, and so is a zero
    with a sign. -/
theorem number_of_signed (hnegative : tok.negative) (hmin : -2 ^ 64 < tok.value)
    (hmax : tok.value < -2 ^ 63 ∨ tok.value = 0) :
    tok.number = .ok (.float (-tok.magnitude.toUInt64.toFloat)) := by
  have hvalue := tok.value_of_negative hnegative
  rw [number, tok.numeral_of_lt (by omega), hnegative]
  rcases hmax with hmax | hmax
  · have hint : int64? (-(tok.magnitude : Int)) = none := int64?_of_not_mem (.inl (by omega))
    simp only [Numeral.value, if_true, hint]
    cases tok.magnitude <;> rfl
  · have hmagnitude : tok.magnitude = 0 := by omega
    simp only [Numeral.value, if_true, hmagnitude]

/-- An integer that does not fit into 64 bits without its sign is scaled. -/
theorem number_of_large (h : tok.value ≤ -2 ^ 64 ∨ 2 ^ 64 ≤ tok.value) :
    tok.number = match tok.scaled? with
      | some x => .ok (.float x)
      | none => .error .numberOutOfRange := by
  have hmagnitude : 2 ^ 64 ≤ tok.magnitude := by
    have := tok.natAbs_value
    omega
  rw [number, tok.numeral_of_le hmagnitude, Numeral.value, scaled?]
  cases Numeral.scale? (Numeral.wholePart tok.digits).1 (Numeral.wholePart tok.digits).2 <;> rfl

end IntegerToken

/-! ## Integers in documents -/

theorem Place.line_foldl (text : List Char) (place : Place) :
    (text.foldl Place.after place).line = place.line + text.count '\n' := by
  induction text generalizing place with
  | nil => rfl
  | cons c text ih =>
    rw [List.foldl_cons, ih, List.count_cons, Place.after]
    by_cases hc : c = '\n'
    · simp [hc, Nat.add_assoc, Nat.add_comm 1]
    · simp [hc]

theorem IntegerToken.count_newline (tok : IntegerToken) : tok.text.count '\n' = 0 := by
  have hdigits : tok.digits.count '\n' = 0 :=
    List.count_eq_zero.mpr fun hmem => absurd (tok.only_digits _ hmem) (by decide)
  unfold text
  split
  · exact hdigits
  · exact hdigits

end Json

/-- Parsing refuses the text for this fault, and parsing it as the text of a file reports the
    file and this line. -/
def RefusedAt (text : String) (fault : Json.Fault) (line : Nat) : Prop :=
  ∃ e : Json.DocumentError, e.fault = fault ∧ Program.parse text = .error (.document e) ∧
    (ParseError.document e).report none = ⟨.invalidSyntax, e.message, none⟩ ∧
    ∀ file, Program.parseNamed text file =
      .error ⟨.invalidSyntax, e.message, some ⟨file, some line⟩⟩

namespace Json.IntegerToken

variable (tok : IntegerToken) {m : Nat} {pre post : List Char} {F : Tree → Tree}

theorem parse_of_ok {P : Number → Program} (hslot : DocumentSlot m pre post F)
    (hsite : Program.Site (fun x => F (Tree.number x)) P) {x : Number} (hx : tok.number = .ok x) :
    Program.parse (String.ofList (pre ++ tok.text ++ post)) = .ok (P x) := by
  have hread : Consumes continuesNumeral (fun c => (readValue m c).plain) tok.text
      (Tree.number x) := by
    intro rest place hrest
    exact (tok.readValue_text m hrest place).trans (by rw [hx]; rfl)
  rw [Program.parse, hslot.readDocument_of_consumes tok.opens hread]
  simp only [hsite.ofTree_eq x]

theorem parse_of_error (hslot : DocumentSlot m pre post F) {fault : Fault}
    (hfault : tok.number = .error fault) :
    RefusedAt (String.ofList (pre ++ tok.text ++ post)) fault (1 + pre.count '\n') := by
  have hread := tok.readValue_text m hslot.notFirst_post (pre.foldl Place.after .start)
  rw [hfault] at hread
  have hdocument := hslot.readDocument_of_error (tok.opens.append post) hread
  have hline : (tok.text.foldl Place.after (pre.foldl Place.after .start)).line =
      1 + pre.count '\n' := by
    rw [Place.line_foldl, Place.line_foldl, tok.count_newline]
    rfl
  rw [← List.append_assoc] at hdocument
  have hparse : Program.parse (String.ofList (pre ++ tok.text ++ post)) = .error (.document
      ⟨fault, tok.text.foldl Place.after (pre.foldl Place.after .start)⟩) := by
    rw [Program.parse, hdocument]
  refine ⟨_, rfl, hparse, rfl, fun file => ?_⟩
  rw [Program.parseNamed_eq, hparse]
  simp only [Except.mapError, ParseError.report, DocumentError.report, Error.locate, hline]

end Json.IntegerToken

/-- What becomes of an integer that stands as a number, as a parameter or as the value of a
    declaration. -/
theorem integer_in_program {m : Nat} {pre post : List Char} {F : Tree → Tree}
    {P : Number → Program} (hslot : Json.DocumentSlot m pre post F)
    (hsite : Program.Site (fun x => F (Tree.number x)) P) (tok : Json.IntegerToken) :
    let text := String.ofList (pre ++ tok.text ++ post)
    let line := 1 + pre.count '\n'
    -- integers of 64 bits are kept
    (-2 ^ 63 ≤ tok.value ∧ tok.value < 2 ^ 63 ∧ ¬ (tok.negative ∧ tok.value = 0) →
      ∃ k : Int64, k.toInt = tok.value ∧ Program.parse text = .ok (P (.integer k))) ∧
    -- larger ones are refused, if they fit into 64 bits without a sign
    (2 ^ 63 ≤ tok.value ∧ tok.value < 2 ^ 64 →
      RefusedAt text (.integerOutOfRange tok.value.toNat) line) ∧
    -- smaller ones and the zero with a sign are floats
    (tok.negative ∧ -2 ^ 64 < tok.value ∧ (tok.value < -2 ^ 63 ∨ tok.value = 0) →
      Program.parse text = .ok (P (.float (-tok.magnitude.toUInt64.toFloat)))) ∧
    -- all others are floats, unless they are too large for one
    (tok.value ≤ -2 ^ 64 ∨ 2 ^ 64 ≤ tok.value →
      (∀ x, tok.scaled? = some x → Program.parse text = .ok (P (.float x))) ∧
        (tok.scaled? = none → RefusedAt text .numberOutOfRange line)) := by
  refine ⟨?_, ?_, ?_, ?_⟩
  · rintro ⟨hmin, hmax, hzero⟩
    obtain ⟨k, hk, hnumber⟩ := tok.number_of_mem hmin hmax fun hneg hval => hzero ⟨hneg, hval⟩
    exact ⟨k, hk, tok.parse_of_ok hslot hsite hnumber⟩
  · rintro ⟨hmin, hmax⟩
    exact tok.parse_of_error hslot (tok.number_of_unsigned hmin hmax)
  · rintro ⟨hnegative, hmin, hmax⟩
    exact tok.parse_of_ok hslot hsite (tok.number_of_signed hnegative hmin hmax)
  · intro hlarge
    have hnumber := tok.number_of_large hlarge
    refine ⟨fun x hx => tok.parse_of_ok hslot hsite ?_, fun hnone => tok.parse_of_error hslot ?_⟩
    · rw [hnumber, hx]
    · rw [hnumber, hnone]

/-- The tree of a program that returns a number. -/
def returned (t : Tree) : Tree :=
  .object [("program", .object [("return", .object [("number", t)])])]

theorem returned_slot : Json.DocumentSlot 124
    ['\n', '\x7b', '"', 'p', 'r', 'o', 'g', 'r', 'a', 'm', '"', ':',
      '\x7b', '"', 'r', 'e', 't', 'u', 'r', 'n', '"', ':',
      '\x7b', '"', 'n', 'u', 'm', 'b', 'e', 'r', '"', ':']
    ['\x7d', '\x7d', '\x7d'] returned := by
  have hprogram := Json.KeyText.plain ['p', 'r', 'o', 'g', 'r', 'a', 'm'] rfl
  have hreturn := Json.KeyText.plain ['r', 'e', 't', 'u', 'r', 'n'] rfl
  have hnumber := Json.KeyText.plain ['n', 'u', 'm', 'b', 'e', 'r'] rfl
  have hslot : Json.Slot Json.nestingLimit 124 _ _ _ :=
    .single hprogram (.single hreturn (.single hnumber .here))
  have hline : Json.Blank ['\n'] := List.forall_mem_singleton.mpr rfl
  have hend : Json.Blank [] := nofun
  exact .intro hline hslot hend

theorem returned_site : Program.Site (fun x => returned (Tree.number x))
    fun x => ⟨[.returns (.literal (.number x))]⟩ := by
  have hreturn : ChildAt .program
      (fun x => .object [("return", .object [("number", Tree.number x)])]) [] .returns
      (fun x => .object [("number", Tree.number x)]) [] := fun _ => rfl
  have hnumber : ChildAt .expression (fun x => .object [("number", Tree.number x)]) []
      .number Tree.number [] := fun _ => rfl
  exact .item (fun _ => rfl) hreturn (.inr (.inr rfl)) rfl (.returns (.number hnumber))
    (fun _ => rfl) rfl

/-- On both sides of the largest integer of 64 bits. -/
theorem integer_in_program_returned :
    (∃ k : Int64, k.toInt = 9223372036854775807 ∧ Program.parse
      "\n\x7b\"program\":\x7b\"return\":\x7b\"number\":9223372036854775807\x7d\x7d\x7d" =
        .ok ⟨[.returns (.literal (.number (.integer k)))]⟩) ∧
    RefusedAt
      "\n\x7b\"program\":\x7b\"return\":\x7b\"number\":9223372036854775808\x7d\x7d\x7d"
      (.integerOutOfRange 9223372036854775808) 2 := by
  let largest : Json.IntegerToken :=
    ⟨false, "9223372036854775807".toList, by decide, List.all_eq_true.mp rfl, rfl⟩
  let larger : Json.IntegerToken :=
    ⟨false, "9223372036854775808".toList, by decide, List.all_eq_true.mp rfl, rfl⟩
  have hkept := (integer_in_program returned_slot returned_site largest).1
  have hrefused := (integer_in_program returned_slot returned_site larger).2.1
  exact ⟨hkept ⟨by decide, by decide, by decide⟩, hrefused ⟨by decide, by decide⟩⟩

/-- Below the least integer of 64 bits, nothing is refused. -/
theorem integer_below_least_rounded :
    ∃ x, Program.parse
      "\n\x7b\"program\":\x7b\"return\":\x7b\"number\":-9223372036854775809\x7d\x7d\x7d" =
        .ok ⟨[.returns (.literal (.number (.float x)))]⟩ := by
  let below : Json.IntegerToken :=
    ⟨true, "9223372036854775809".toList, by decide, List.all_eq_true.mp rfl, rfl⟩
  have hnumber := below.number_of_signed rfl (by decide) (.inl (by decide))
  exact ⟨_, below.parse_of_ok returned_slot returned_site hnumber⟩

end TreeWalk
