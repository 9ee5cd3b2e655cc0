-- SUMMARY: Documents with one value left open.
import TreeWalk.Proofs.ValueLocality

/-! # Slots

A slot is a document with one value left out: the text before it, the text after it, and
the tree of the document as a function of the tree that the value is read as. What else
stands in the document is any text that by itself is read as what should stand there.

Filling a slot with a text that is read as `t` gives a text that is read as the tree with
`t` in its place. Filling it with a text that is an error gives that error, whatever follows.
-/

namespace TreeWalk.Json

variable {α : Type}

/-! ## Texts that are read by themselves -/

/-- The text by itself is read as `a`. -/
def Reads (f : Reader α) (text : List Char) (a : α) : Prop :=
  ∃ place, f ⟨text, .start⟩ = .ok (a, ⟨[], place⟩)

theorem Reads.consumes {p : Char → Bool} {f : Reader α} {text : List Char} {a : α}
    (h : Reads f text a) (hlocal : LocalAt p f ⟨text, .start⟩) : Consumes p f text a := by
  obtain ⟨place, h⟩ := h
  obtain ⟨read, hrest, hread⟩ := hlocal a _ h
  simp only [List.append_nil] at hrest
  exact hrest ▸ hread

/-- Nothing but blanks. -/
def Blank (text : List Char) : Prop :=
  ∀ x ∈ text, Cursor.isBlank x

theorem skipBlanks_blank {blanks : List Char} (hblanks : Blank blanks) (text : List Char)
    (place : Place) :
    (Cursor.mk (blanks ++ text) place).skipBlanks =
      (Cursor.mk text (blanks.foldl Place.after place)).skipBlanks := by
  cases hspan : (Cursor.mk text (blanks.foldl Place.after place)).span Cursor.isBlank with
  | mk more rest =>
    obtain ⟨htext, hmore, hfirst, -⟩ := span_spec hspan
    have hboth : ∀ x ∈ blanks ++ more, Cursor.isBlank x := by
      intro x hx
      exact (List.mem_append.mp hx).elim (hblanks x) (hmore x)
    change text = more ++ rest.rest at htext
    rw [htext, skipBlanks_append hmore hfirst, ← List.append_assoc, skipBlanks_append hboth hfirst,
      List.foldl_append]

theorem Blank.notFirst {blanks rest : List Char} (hblanks : Blank blanks)
    (hrest : NotFirst continuesNumeral rest) : NotFirst continuesNumeral (blanks ++ rest) := by
  cases blanks with
  | nil => exact hrest
  | cons x blanks =>
    exact notFirst_cons.mpr (continuesNumeral_of_isBlank (hblanks x List.mem_cons_self))

theorem Blank.skipBlanks {blanks : List Char} (hblanks : Blank blanks) (place : Place) :
    (Cursor.mk blanks place).skipBlanks = ⟨[], blanks.foldl Place.after place⟩ := by
  simpa using skipBlanks_append hblanks notFirst_nil place

/-- Behind blanks, the text goes on with a character that is no closing bracket. -/
def Opens (text : List Char) : Prop :=
  ∃ blanks x rest, text = blanks ++ x :: rest ∧ Blank blanks ∧ Cursor.isBlank x = false ∧
    x ≠ ']' ∧ x ≠ '\x7d'

namespace Opens

variable {text : List Char}

theorem append (h : Opens text) (more : List Char) : Opens (text ++ more) := by
  obtain ⟨blanks, x, rest, rfl, h⟩ := h
  exact ⟨blanks, x, rest ++ more, by simp, h⟩

theorem behind (h : Opens text) {blanks : List Char} (hblanks : Blank blanks) :
    Opens (blanks ++ text) := by
  obtain ⟨blanks', x, rest, rfl, hblanks', h⟩ := h
  refine ⟨blanks ++ blanks', x, rest, by simp, fun y hy => ?_, h⟩
  exact (List.mem_append.mp hy).elim (hblanks y) (hblanks' y)

theorem skipBlanks (h : Opens text) (place : Place) :
    ∃ x rest place', (Cursor.mk text place).skipBlanks = ⟨x :: rest, place'⟩ ∧
      x ≠ ']' ∧ x ≠ '\x7d' := by
  obtain ⟨blanks, x, rest, rfl, hblanks, hx, hclosing⟩ := h
  exact ⟨x, rest, _, skipBlanks_append hblanks (notFirst_cons.mpr hx) place, hclosing⟩

end Opens

/-! ## Enclosures -/

/-- What lists and objects have in common. -/
structure Enclosure.Regular (within : Enclosure α) : Prop where
  closing : within.closing = ']' ∨ within.closing = '\x7d'
  item_local : ∀ c, LocalAt continuesNumeral (fun c => (within.item c).plain) c
  item_closing : ∀ x, x = ']' ∨ x = '\x7d' → ∀ rest place s,
    (within.item ⟨x :: rest, place⟩).plain ≠ .ok s

theorem readValue_plain (nesting : Nat) :
    ∃ inner, ∀ c, (readValue nesting c).plain = valueHere inner c.skipBlanks := by
  cases nesting with
  | zero => exact ⟨none, readValueWith_plain none⟩
  | succ nesting => exact ⟨_, readValueWith_plain (some (readValue nesting))⟩

theorem readValue_closing (nesting : Nat) {x : Char} (hx : x = ']' ∨ x = '\x7d')
    (rest : List Char) (place : Place) (s : Tree × Cursor) :
    (readValue nesting ⟨x :: rest, place⟩).plain ≠ .ok s := by
  obtain ⟨inner, hinner⟩ := readValue_plain nesting
  rw [hinner]
  rcases hx with rfl | rfl <;> rw [skipBlanks_of_notFirst (notFirst_cons.mpr rfl)] <;> nofun

theorem listOf_regular (nesting : Nat) : (listOf (readValue nesting)).Regular where
  closing := .inl rfl
  item_local := readValue_local nesting
  item_closing _ := readValue_closing nesting

theorem objectOf_regular (nesting : Nat) : (objectOf (readValue nesting)).Regular where
  closing := .inr rfl
  item_local := readEntry_local (readValue_local nesting)
  item_closing x hx rest place s := by
    refine readEntry_of_ne ?_ rest place s
    rcases hx with rfl | rfl <;> decide

/-- Reads an item and the blanks before it. -/
def behindBlanks (within : Enclosure α) : Reader α := fun c => (within.item c.skipBlanks).plain

theorem itemsFrom_skipBlanks (within : Enclosure α) (c : Cursor) :
    itemsFrom within c.skipBlanks = behindBlanks within c >>= fun item => do
      let more ← (readMore within item.2).plain
      return (item.1 :: more.1, more.2) := rfl

/-- The text of items up to the place of the next one: each stands by itself, and a comma
    follows it. -/
inductive ItemsBefore (within : Enclosure α) : List Char → List α → Prop
  | nil {blanks : List Char} : Blank blanks → ItemsBefore within blanks []
  | cons {text blanks rest : List Char} {a : α} {as : List α} :
      Reads (behindBlanks within) text a → Blank blanks → ItemsBefore within rest as →
        ItemsBefore within (text ++ blanks ++ ',' :: rest) (a :: as)

/-- The text of what follows an item, up to the closing bracket. -/
abbrev ItemsAfter (within : Enclosure α) : List Char → List α → Prop :=
  Reads fun c => (readMore within c).plain

theorem ItemsAfter.closing (within : Enclosure α)
    (hclosing : Cursor.isBlank within.closing = false) : ItemsAfter within [within.closing] [] := by
  refine ⟨Place.start.after within.closing, ?_⟩
  dsimp only
  rw [readMore_plain, skipBlanks_of_notFirst (notFirst_cons.mpr hclosing)]
  exact if_pos rfl

namespace Enclosure.Regular

variable {within : Enclosure α} (hwithin : within.Regular)

include hwithin

theorem ne_closing {x : Char} (hlist : x ≠ ']') (hobject : x ≠ '\x7d') : x ≠ within.closing := by
  rcases hwithin.closing with h | h <;> rw [h] <;> assumption

theorem consumes_item {text : List Char} {a : α} (h : Reads (behindBlanks within) text a) :
    Consumes continuesNumeral (behindBlanks within) text a :=
  h.consumes (.blanks (g := fun c => (within.item c).plain) (fun _ => rfl)
    (fun _ => Reading.plain_nil _) (hwithin.item_local _))

theorem opens_of_item {text : List Char} {a : α} (h : Reads (behindBlanks within) text a) :
    Opens text := by
  obtain ⟨place, h⟩ := h
  cases hspan : (Cursor.mk text .start).span Cursor.isBlank with
  | mk blanks e =>
    obtain ⟨htext, hblanks, hfirst, -⟩ := span_spec hspan
    rw [behindBlanks, Cursor.skipBlanks, hspan] at h
    obtain ⟨rest, place⟩ := e
    cases rest with
    | nil => exact absurd h (Reading.plain_nil _ _)
    | cons x rest =>
      refine ⟨blanks, x, rest, htext, hblanks, hfirst x rfl, ?_, ?_⟩ <;> rintro rfl <;>
        exact hwithin.item_closing _ (by simp) _ _ _ h

theorem readItems_opens {text : List Char} (htext : Opens text) (place : Place) :
    (readItems within ⟨text, place⟩).plain =
      itemsFrom within (Cursor.mk text place).skipBlanks := by
  obtain ⟨x, rest, place', hskip, hlist, hobject⟩ := htext.skipBlanks place
  rw [readItems_plain, hskip, behindOpening, if_neg (hwithin.ne_closing hlist hobject)]

theorem readMore_comma {blanks text : List Char} (hblanks : Blank blanks) (htext : Opens text)
    (place : Place) :
    (readMore within ⟨blanks ++ ',' :: text, place⟩).plain = itemsFrom within
      (Cursor.mk text ((blanks.foldl Place.after place).after ',')).skipBlanks := by
  obtain ⟨x, rest, place', hskip, hlist, hobject⟩ :=
    htext.skipBlanks ((blanks.foldl Place.after place).after ',')
  rw [readMore_plain, skipBlanks_append hblanks (notFirst_cons.mpr rfl), behindItem,
    if_neg (hwithin.ne_closing (by decide) (by decide)), if_pos rfl, hskip, behindComma]
  exact if_neg (hwithin.ne_closing hlist hobject)

theorem opens_before {before : List Char} {as : List α} (h : ItemsBefore within before as)
    {text : List Char} (htext : Opens text) : Opens (before ++ text) := by
  cases h with
  | nil hblanks => exact htext.behind hblanks
  | cons hitem _ _ =>
    simp only [List.append_assoc]
    exact (hwithin.opens_of_item hitem).append _

/-- Items that are read by themselves are read before what follows them. -/
theorem itemsFrom_before {before : List Char} {as : List α} (h : ItemsBefore within before as)
    {text : List Char} (htext : Opens text) (place : Place) :
    itemsFrom within (Cursor.mk (before ++ text) place).skipBlanks =
      (itemsFrom within (Cursor.mk text (before.foldl Place.after place)).skipBlanks).map
        fun s => (as ++ s.1, s.2) := by
  induction h generalizing place with
  | nil hblanks =>
    rw [skipBlanks_blank hblanks]
    cases itemsFrom within _ <;> rfl
  | @cons item blanks rest a as hitem hblanks hrest ih =>
    have hstop : NotFirst continuesNumeral (blanks ++ ',' :: (rest ++ text)) :=
      hblanks.notFirst (notFirst_cons.mpr rfl)
    have hread := hwithin.consumes_item hitem _ place hstop
    have hmore := hwithin.readMore_comma hblanks (hwithin.opens_before hrest htext)
      (item.foldl Place.after place)
    rw [behindBlanks] at hread
    simp only [List.append_assoc, List.cons_append, List.foldl_append, List.foldl_cons]
    rw [itemsFrom, hread]
    simp only [Bind.bind, Except.bind]
    rw [hmore, ih]
    cases itemsFrom within _ <;> rfl

/-- An item that is an error is the error of the whole enclosure. -/
theorem readItems_fails {before : List Char} {as : List α} (h : ItemsBefore within before as)
    {text : List Char} (htext : Opens text) {place : Place} {e : DocumentError}
    (herror : behindBlanks within ⟨text, before.foldl Place.after place⟩ = .error e) :
    (readItems within ⟨before ++ text, place⟩).plain = .error e := by
  rw [hwithin.readItems_opens (hwithin.opens_before h htext), hwithin.itemsFrom_before h htext,
    itemsFrom_skipBlanks, herror]
  rfl

theorem continuesNumeral_closing : continuesNumeral within.closing = false := by
  rcases hwithin.closing with h | h <;> rw [h] <;> rfl

theorem notFirst_after {after : List Char} {as : List α} (h : ItemsAfter within after as)
    (rest : List Char) : NotFirst continuesNumeral (after ++ rest) := by
  obtain ⟨place, h⟩ := h
  have hfirst := notFirst_of_readMore hwithin.continuesNumeral_closing h
  cases after with
  | nil => exact absurd h (Reading.plain_nil _ _)
  | cons x after => exact notFirst_cons.mpr (notFirst_cons.mp hfirst)

/-- An item between other items is read with them. -/
theorem readItems_consumes {before text after : List Char} {as bs : List α} {a : α}
    (hbefore : ItemsBefore within before as) (hopens : Opens text)
    (htext : Consumes continuesNumeral (behindBlanks within) text a)
    (hafter : ItemsAfter within after bs) :
    Consumes continuesNumeral (fun c => (readItems within c).plain) (before ++ text ++ after)
      (as ++ a :: bs) := by
  intro rest place hstop
  have hmore := hafter.consumes (readMore_local hwithin.continuesNumeral_closing
    hwithin.item_local _) rest (text.foldl Place.after (before.foldl Place.after place)) hstop
  have hread := htext (after ++ rest) (before.foldl Place.after place)
    (hwithin.notFirst_after hafter rest)
  dsimp only at hmore ⊢
  rw [List.append_assoc, List.append_assoc,
    hwithin.readItems_opens (hwithin.opens_before hbefore (hopens.append _)),
    hwithin.itemsFrom_before hbefore (hopens.append _), itemsFrom_skipBlanks, hread]
  simp only [Bind.bind, Except.bind, hmore, List.foldl_append]
  rfl

end Enclosure.Regular

/-! ## Slots -/

/-- The text of a key, up to the value that belongs to it. -/
inductive KeyText : List Char → String → Prop
  | intro {key blanks blanks' : List Char} {k : String} :
      Reads (fun c => (readString c).plain) key k → Blank blanks → Blank blanks' →
        KeyText ('"' :: key ++ blanks ++ ':' :: blanks') k

/-- Stands for itself in a string. -/
def isPlain (x : Char) : Bool :=
  x != '"' && x != '\\' && !decide (x < ' ')

theorem readCharacters_of_isPlain {text : List Char} (htext : ∀ x ∈ text, isPlain x)
    (place : Place) (read : List Char) :
    ∃ place', (readCharacters ⟨text ++ ['"'], place⟩ read).plain =
      .ok (String.ofList (read.reverse ++ text), ⟨[], place'⟩) := by
  induction text generalizing place read with
  | nil => exact ⟨_, by simpa using readCharacters_quote [] place read⟩
  | cons x text ih =>
    obtain ⟨⟨hquote, hbackslash⟩, hcontrol⟩ : (x ≠ '"' ∧ x ≠ '\\') ∧ ¬ x < ' ' := by
      simpa [isPlain] using htext x List.mem_cons_self
    obtain ⟨place', h⟩ := ih (fun y hy => htext y (List.mem_cons_of_mem x hy)) (place.after x)
      (x :: read)
    refine ⟨place', ?_⟩
    rw [List.cons_append, readCharacters_plain hquote hbackslash hcontrol, h]
    simp

/-- A key without escapes stands for its characters. -/
theorem KeyText.plain (text : List Char) (htext : text.all isPlain) :
    KeyText ('"' :: text ++ ['"', ':']) (String.ofList text) := by
  have hread := readCharacters_of_isPlain (List.all_eq_true.mp htext) .start []
  have hkey : KeyText ('"' :: (text ++ ['"']) ++ [] ++ ':' :: []) (String.ofList text) :=
    .intro hread nofun nofun
  simpa using hkey

/-- `Slot n m pre post F` is a value that is read with `n` brackets to open, in which a value
    is left open that is read with `m`. The open one stands between `pre` and `post`, and `F`
    is the tree as a function of it. -/
inductive Slot : Nat → Nat → List Char → List Char → (Tree → Tree) → Prop
  | here {n : Nat} : Slot n n [] [] id
  | item {n m : Nat} {before pre post after : List Char} {xs ys : List Tree} {F : Tree → Tree} :
      ItemsBefore (listOf (readValue n)) before xs → Slot n m pre post F →
        ItemsAfter (listOf (readValue n)) after ys →
          Slot (n + 1) m ('[' :: before ++ pre) (post ++ after) fun t => .list (xs ++ F t :: ys)
  | entry {n m : Nat} {before key pre post after : List Char} {k : String}
      {es fs : List (String × Tree)} {F : Tree → Tree} :
      ItemsBefore (objectOf (readValue n)) before es → KeyText key k → Slot n m pre post F →
        ItemsAfter (objectOf (readValue n)) after fs →
          Slot (n + 1) m ('\x7b' :: before ++ key ++ pre) (post ++ after)
            fun t => .object (es ++ (k, F t) :: fs)

/-- An object of one entry whose value is left open. -/
theorem Slot.single {n m : Nat} {key pre post : List Char} {k : String} {F : Tree → Tree}
    (hkey : KeyText key k) (h : Slot n m pre post F) :
    Slot (n + 1) m ('\x7b' :: key ++ pre) (post ++ ['\x7d']) fun t => .object [(k, F t)] := by
  have hbefore : ItemsBefore (objectOf (readValue n)) [] [] := .nil nofun
  exact .entry hbefore hkey h (.closing _ rfl)

/-! ## Filling a slot -/

theorem skipBlanks_skipBlanks (c : Cursor) : c.skipBlanks.skipBlanks = c.skipBlanks := by
  cases hspan : c.span Cursor.isBlank with
  | mk blanks e =>
    rw [Cursor.skipBlanks, Cursor.skipBlanks, hspan]
    exact skipBlanks_of_notFirst (span_spec hspan).2.2.1 e.place

theorem behindBlanks_listOf (nesting : Nat) (c : Cursor) :
    behindBlanks (listOf (readValue nesting)) c = (readValue nesting c).plain := by
  obtain ⟨inner, hinner⟩ := readValue_plain nesting
  rw [behindBlanks, hinner]
  exact (hinner _).trans (by rw [skipBlanks_skipBlanks])

theorem readValue_blank {blanks : List Char} (hblanks : Blank blanks) (nesting : Nat)
    (text : List Char) (place : Place) :
    (readValue nesting ⟨blanks ++ text, place⟩).plain =
      (readValue nesting ⟨text, blanks.foldl Place.after place⟩).plain := by
  obtain ⟨inner, hinner⟩ := readValue_plain nesting
  rw [hinner, hinner, skipBlanks_blank hblanks]

theorem KeyText.behindBlanks {key : List Char} {k : String} (h : KeyText key k) (nesting : Nat)
    (text : List Char) (place : Place) :
    behindBlanks (objectOf (readValue nesting)) ⟨key ++ text, place⟩ =
      (readValue nesting ⟨text, key.foldl Place.after place⟩).plain >>= fun s =>
        .ok ((k, s.1), s.2) := by
  cases h with
  | @intro key blanks blanks' k hkey hblanks hblanks' =>
    have hread := hkey.consumes (readCharacters_local _ [])
      (blanks ++ ':' :: (blanks' ++ text)) (place.after '"') (notFirst_noChar _)
    dsimp only at hread
    rw [List.foldl_append, List.foldl_append, List.append_assoc, List.append_assoc,
      Json.behindBlanks, List.cons_append, skipBlanks_of_notFirst (notFirst_cons.mpr rfl)]
    refine (readEntry_quote _ _).trans ?_
    rw [List.cons_append, hread]
    simp only [Bind.bind, Except.bind]
    rw [skipBlanks_append hblanks (notFirst_cons.mpr rfl), behindKey, if_pos rfl,
      readValue_blank hblanks']
    rfl

theorem KeyText.opens {key : List Char} {k : String} (h : KeyText key k) : Opens key := by
  cases h
  exact ⟨[], '"', _, rfl, nofun, rfl, by decide, by decide⟩

theorem KeyText.consumes {key text : List Char} {k : String} {t : Tree} {nesting : Nat}
    (h : KeyText key k)
    (htext : Consumes continuesNumeral (fun c => (readValue nesting c).plain) text t) :
    Consumes continuesNumeral (Json.behindBlanks (objectOf (readValue nesting))) (key ++ text)
      (k, t) := by
  intro rest place hstop
  have hvalue := htext rest (key.foldl Place.after place) hstop
  dsimp only at hvalue
  rw [List.append_assoc, h.behindBlanks, hvalue, List.foldl_append]
  rfl

theorem readValue_list (nesting : Nat) (text : List Char) (place : Place) :
    (readValue (nesting + 1) ⟨'[' :: text, place⟩).plain =
      (readItems (listOf (readValue nesting)) ⟨text, place.after '['⟩).plain >>= fun s =>
        .ok (.list s.1, s.2) := by
  refine (readValueWith_plain _ _).trans ?_
  rw [skipBlanks_of_notFirst (notFirst_cons.mpr rfl)]
  change Except.map _ _ = _
  cases (readItems (listOf (readValue nesting)) ⟨text, place.after '['⟩).plain <;> rfl

theorem readValue_object (nesting : Nat) (text : List Char) (place : Place) :
    (readValue (nesting + 1) ⟨'\x7b' :: text, place⟩).plain =
      (readItems (objectOf (readValue nesting)) ⟨text, place.after '\x7b'⟩).plain >>= fun s =>
        .ok (.object s.1, s.2) := by
  refine (readValueWith_plain _ _).trans ?_
  rw [skipBlanks_of_notFirst (notFirst_cons.mpr rfl)]
  change Except.map _ _ = _
  cases (readItems (objectOf (readValue nesting)) ⟨text, place.after '\x7b'⟩).plain <;> rfl

/-- What is read between brackets is read with them. -/
theorem Consumes.bracketed {nesting : Nat} {within : Enclosure α} {opening : Char}
    {wrap : List α → Tree}
    (hopening : ∀ text place, (readValue nesting ⟨opening :: text, place⟩).plain =
      (readItems within ⟨text, place.after opening⟩).plain >>= fun s => .ok (wrap s.1, s.2))
    {text : List Char} {as : List α}
    (h : Consumes continuesNumeral (fun c => (readItems within c).plain) text as) :
    Consumes continuesNumeral (fun c => (readValue nesting c).plain) (opening :: text)
      (wrap as) := by
  intro rest place hstop
  have hitems := h rest (place.after opening) hstop
  dsimp only at hitems ⊢
  rw [List.cons_append, hopening, hitems]
  rfl

namespace Slot

variable {n m : Nat} {pre post text : List Char} {F : Tree → Tree}

theorem opens (h : Slot n m pre post F) (htext : Opens text) : Opens (pre ++ text) := by
  cases h with
  | here => exact htext
  | item => exact ⟨[], '[', _, rfl, nofun, rfl, by decide, by decide⟩
  | entry => exact ⟨[], '\x7b', _, rfl, nofun, rfl, by decide, by decide⟩

/-- An error at the open value is the error of the whole value, whatever follows. -/
theorem fails (h : Slot n m pre post F) (htext : Opens text) {place : Place} {e : DocumentError}
    (herror : (readValue m ⟨text, pre.foldl Place.after place⟩).plain = .error e) :
    (readValue n ⟨pre ++ text, place⟩).plain = .error e := by
  induction h generalizing place with
  | here => exact herror
  | @item n m before pre post after xs ys F hbefore hslot hafter ih =>
    rw [List.foldl_append] at herror
    have hitems := (listOf_regular n).readItems_fails hbefore (hslot.opens htext)
      ((behindBlanks_listOf n _).trans (ih herror))
    rw [List.append_assoc, List.cons_append, readValue_list, hitems]
    rfl
  | @entry n m before key pre post after k es fs F hbefore hkey hslot hafter ih =>
    rw [List.foldl_append, List.foldl_append] at herror
    have hentry := (hkey.behindBlanks n (pre ++ text)
      (before.foldl Place.after (place.after '\x7b'))).trans (congrArg (· >>= _) (ih herror))
    have hitems := (objectOf_regular n).readItems_fails hbefore (hkey.opens.append _) hentry
    rw [List.append_assoc, List.append_assoc, List.cons_append, readValue_object, hitems]
    rfl

/-- A text that is read at the open value is read as a part of the whole value. -/
theorem consumes (h : Slot n m pre post F) (hopens : Opens text) {t : Tree}
    (htext : Consumes continuesNumeral (fun c => (readValue m c).plain) text t) :
    Consumes continuesNumeral (fun c => (readValue n c).plain) (pre ++ text ++ post) (F t) := by
  induction h with
  | here => simpa using htext
  | @item n m before pre post after xs ys F hbefore hslot hafter ih =>
    have hitem : Consumes continuesNumeral (behindBlanks (listOf (readValue n)))
        (pre ++ text ++ post) (F t) := by
      rw [show behindBlanks (listOf (readValue n)) = fun c => (readValue n c).plain from
        funext (behindBlanks_listOf n)]
      exact ih htext
    have hitems := (listOf_regular n).readItems_consumes hbefore
      ((hslot.opens hopens).append post) hitem hafter
    simpa only [List.append_assoc, List.cons_append] using hitems.bracketed (readValue_list n)
  | @entry n m before key pre post after k es fs F hbefore hkey hslot hafter ih =>
    have hitems := (objectOf_regular n).readItems_consumes hbefore (hkey.opens.append _)
      (hkey.consumes (ih htext)) hafter
    simpa only [List.append_assoc, List.cons_append] using hitems.bracketed (readValue_object n)

/-- What follows the open value does not make a numeral longer. -/
theorem notFirst_post (h : Slot n m pre post F) {rest : List Char}
    (hrest : NotFirst continuesNumeral rest) : NotFirst continuesNumeral (post ++ rest) := by
  induction h generalizing rest with
  | here => exact hrest
  | item _ _ hafter ih =>
    rw [List.append_assoc]
    exact ih ((listOf_regular _).notFirst_after hafter rest)
  | entry _ _ _ hafter ih =>
    rw [List.append_assoc]
    exact ih ((objectOf_regular _).notFirst_after hafter rest)

end Slot

/-! ## Documents -/

/-- `DocumentSlot m pre post F` is a whole document with a value left open. -/
inductive DocumentSlot (m : Nat) : List Char → List Char → (Tree → Tree) → Prop
  | intro {blanks pre post blanks' : List Char} {F : Tree → Tree} :
      Blank blanks → Slot nestingLimit m pre post F → Blank blanks' →
        DocumentSlot m (blanks ++ pre) (post ++ blanks') F

theorem readDocument_plain (text : String) :
    readDocument text = (readValue nestingLimit (.ofString text)).plain >>= fun s =>
      if s.2.skipBlanks.rest.isEmpty then .ok s.1
      else s.2.skipBlanks.failNext .trailingCharacters := by
  unfold readDocument
  cases readValue nestingLimit (.ofString text) <;> rfl

namespace DocumentSlot

variable {m : Nat} {pre post text : List Char} {F : Tree → Tree}

/-- A text that is read at the open value is read as a part of the document. -/
theorem readDocument_of_consumes (h : DocumentSlot m pre post F) (hopens : Opens text) {t : Tree}
    (htext : Consumes continuesNumeral (fun c => (readValue m c).plain) text t) :
    readDocument (String.ofList (pre ++ text ++ post)) = .ok (F t) := by
  cases h with
  | @intro blanks pre post blanks' F hblanks hslot hblanks' =>
    have hstop : NotFirst continuesNumeral blanks' := by
      simpa using hblanks'.notFirst notFirst_nil
    have hread := hslot.consumes hopens htext blanks' (blanks.foldl Place.after .start) hstop
    have hassoc : blanks ++ pre ++ text ++ (post ++ blanks') =
        blanks ++ (pre ++ text ++ post ++ blanks') := by simp
    dsimp only at hread
    rw [readDocument_plain, Cursor.ofString, String.toList_ofList, hassoc, readValue_blank hblanks,
      hread]
    simp only [Bind.bind, Except.bind]
    rw [hblanks'.skipBlanks]
    rfl

/-- An error at the open value is the error of the document, whatever follows. -/
theorem readDocument_of_error (h : DocumentSlot m pre post F) (hopens : Opens text)
    {e : DocumentError}
    (herror : (readValue m ⟨text, pre.foldl Place.after .start⟩).plain = .error e) :
    readDocument (String.ofList (pre ++ text)) = .error e := by
  cases h with
  | @intro blanks pre post blanks' F hblanks hslot hblanks' =>
    rw [List.foldl_append] at herror
    have hread := hslot.fails hopens herror
    rw [readDocument_plain, Cursor.ofString, String.toList_ofList, List.append_assoc,
      readValue_blank hblanks, hread]
    rfl

theorem notFirst_post (h : DocumentSlot m pre post F) : NotFirst continuesNumeral post := by
  cases h with
  | intro hblanks hslot hblanks' =>
    exact hslot.notFirst_post (by simpa using hblanks'.notFirst notFirst_nil)

end DocumentSlot

end TreeWalk.Json
