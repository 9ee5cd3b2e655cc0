-- SUMMARY: A value is read the same wherever it stands and whatever follows it.
import TreeWalk.Json.Document

/-! # Locality of reading

A reader that succeeds has read some characters, and it reads those characters the same
behind any other text and before any other text. Only numerals look at what follows them:
a digit, a point or the mark of an exponent would make them longer. So the property is
relative to a class of characters that must not come next.

The steps of `Json` carry the fact that the cursor has moved; `Reading.plain` forgets it, and
readers are composed of smaller ones by the rules for `LocalAt`.
-/

namespace TreeWalk.Json

variable {α β : Type}

/-! ## Plain readings -/

/-- A reading without the fact that the cursor has moved. -/
def Reading.plain {c : Cursor} (r : Reading α c) : Except DocumentError (α × Cursor) :=
  r.map fun s => (s.value, s.next)

/-- A reader in plain form. -/
abbrev Reader (α : Type) := Cursor → Except DocumentError (α × Cursor)

/-- Gives what has become of what was read, without reading more. -/
def Reader.settle (r : Except Fault α) : Reader α := fun c =>
  match r with
  | .ok a => .ok (a, c)
  | .error fault => c.failHere fault

namespace Reading

variable {c d : Cursor}

@[simp] theorem plain_ok (s : Step α c) : Reading.plain (.ok s) = .ok (s.value, s.next) := rfl

@[simp] theorem plain_error (e : DocumentError) :
    Reading.plain (.error e : Reading α c) = .error e := rfl

theorem shorter_of_plain {r : Reading α c} {a : α} (h : r.plain = .ok (a, d)) :
    d.rest.length < c.rest.length := by
  cases r with
  | error e => cases h
  | ok s =>
    cases h
    exact s.shorter

/-- Nothing is read of an empty text. -/
theorem plain_nil {place : Place} (r : Reading α ⟨[], place⟩) (s : α × Cursor) :
    r.plain ≠ .ok s :=
  fun h => absurd (shorter_of_plain h) (Nat.not_lt_zero _)

theorem plain_map (r : Reading α d) {f : Step α d → Step β c} {g : α × Cursor → β × Cursor}
    (h : ∀ s, ((f s).value, (f s).next) = g (s.value, s.next)) :
    Reading.plain (r.map f) = r.plain.map g := by
  cases r with
  | error e => rfl
  | ok s => exact congrArg Except.ok (h s)

@[simp] theorem plain_map_behind {e : Cursor} (r : Reading α d)
    (h : d.rest.length ≤ e.rest.length) :
    Reading.plain (r.map fun s => s.behind h) = r.plain := by
  cases r <;> rfl

theorem plain_bind {r : Reading α d} {f : Step α d → Reading β c}
    {g : α × Cursor → Except DocumentError (β × Cursor)}
    (h : ∀ s, (f s).plain = g (s.value, s.next)) :
    Reading.plain (r >>= f) = r.plain >>= g := by
  cases r with
  | error e => rfl
  | ok s => exact h s

end Reading

/-! ## Local readers -/

/-- No character of the class comes first in a text. -/
def NotFirst (inClass : Char → Bool) (text : List Char) : Prop :=
  ∀ x ∈ text.head?, inClass x = false

/-- The reader reads these characters as `a`, wherever they stand, if no character of the
    class follows. -/
def Consumes (inClass : Char → Bool) (f : Reader α) (read : List Char) (a : α) : Prop :=
  ∀ rest place, NotFirst inClass rest →
    f ⟨read ++ rest, place⟩ = .ok (a, ⟨rest, read.foldl Place.after place⟩)

/-- What the reader reads at this cursor, it reads the same elsewhere. -/
def LocalAt (inClass : Char → Bool) (f : Reader α) (c : Cursor) : Prop :=
  ∀ a d, f c = .ok (a, d) → ∃ read, c.rest = read ++ d.rest ∧ Consumes inClass f read a

/-- The class of no character. -/
def noChar (_ : Char) : Bool := false

/-- The characters that could make a numeral longer. -/
def continuesNumeral (x : Char) : Bool :=
  x.isDigit || x == '.' || x == 'e' || x == 'E'

@[simp] theorem notFirst_nil {p : Char → Bool} : NotFirst p [] := nofun

@[simp] theorem notFirst_cons {p : Char → Bool} {x : Char} {text : List Char} :
    NotFirst p (x :: text) ↔ p x = false := by
  simp [NotFirst]

theorem NotFirst.append {p : Char → Bool} {read rest rest' : List Char}
    (h : NotFirst p (read ++ rest)) (h' : NotFirst p rest') : NotFirst p (read ++ rest') := by
  cases read with
  | nil => exact h'
  | cons x read => exact h

theorem NotFirst.mono {p q : Char → Bool} {text : List Char} (hpq : ∀ x, p x → q x)
    (h : NotFirst q text) : NotFirst p text := by
  intro x hx
  have hq := h x hx
  cases hp : p x with
  | false => rfl
  | true => rw [hpq x hp] at hq; cases hq

theorem notFirst_noChar (text : List Char) : NotFirst noChar text := fun _ _ => rfl

namespace LocalAt

variable {p q : Char → Bool} {f : Reader α} {c : Cursor}

theorem of_error (h : ∀ a d, f c ≠ .ok (a, d)) : LocalAt p f c :=
  fun a d heq => absurd heq (h a d)

theorem pure (a : α) : LocalAt p (fun c => .ok (a, c)) c := by
  intro a d h
  cases h
  exact ⟨[], rfl, fun _ _ _ => rfl⟩

theorem mono (hpq : ∀ x, p x → q x) (h : LocalAt p f c) : LocalAt q f c := by
  intro a d heq
  obtain ⟨read, hrest, hread⟩ := h a d heq
  exact ⟨read, hrest, fun rest place hstop => hread rest place (hstop.mono hpq)⟩

/-- Readers that succeed together are local together. -/
theorem congr {g : Reader α} (hfg : ∀ c s, f c = .ok s ↔ g c = .ok s) (h : LocalAt p g c) :
    LocalAt p f c := by
  intro a d heq
  obtain ⟨read, hrest, hread⟩ := h a d ((hfg c _).mp heq)
  exact ⟨read, hrest, fun rest place hstop => (hfg _ _).mpr (hread rest place hstop)⟩

/-- Reading one thing and then another. What the second reads must not come from the class
    that would make the first read more. -/
theorem bind {g : α × Cursor → Except DocumentError (β × Cursor)} (hf : LocalAt p f c)
    (hg : ∀ a d, f c = .ok (a, d) → LocalAt q (fun d => g (a, d)) d) (hpq : ∀ x, p x → q x)
    (hstop : ∀ a d b e, f c = .ok (a, d) → g (a, d) = .ok (b, e) → NotFirst p d.rest) :
    LocalAt q (fun c => f c >>= g) c := by
  intro b e h
  cases hfc : f c with
  | error err => simp [hfc, Bind.bind, Except.bind] at h
  | ok s =>
    obtain ⟨a, d⟩ := s
    have hgd : g (a, d) = .ok (b, e) := by simpa [hfc, Bind.bind, Except.bind] using h
    obtain ⟨first, hfirst, hread⟩ := hf a d hfc
    obtain ⟨second, hsecond, hread'⟩ := hg a d hfc b e hgd
    have hmiddle : NotFirst p (second ++ e.rest) := hsecond ▸ hstop a d b e hfc hgd
    refine ⟨first ++ second, by rw [hfirst, hsecond, List.append_assoc], ?_⟩
    intro rest place hrest
    have hfirst := hread (second ++ rest) place (hmiddle.append (hrest.mono hpq))
    simp only [List.append_assoc, List.foldl_append, hfirst, Bind.bind, Except.bind]
    exact hread' rest _ hrest

/-- Reading one thing, which no text makes longer, and then another. -/
theorem bind_noChar {g : α × Cursor → Except DocumentError (β × Cursor)}
    (hf : LocalAt noChar f c)
    (hg : ∀ a d, f c = .ok (a, d) → LocalAt q (fun d => g (a, d)) d) :
    LocalAt q (fun c => f c >>= g) c :=
  hf.bind hg nofun fun _ _ _ _ _ _ => notFirst_noChar _

/-- Reading nothing more. -/
theorem settle (r : Except Fault α) (c : Cursor) : LocalAt p (Reader.settle r) c := by
  cases r with
  | ok a => exact .pure a
  | error fault => exact .of_error nofun

/-- Reading something and then looking at it again. -/
theorem check (g : α → Except Fault β) (hf : LocalAt p f c) :
    LocalAt p (fun c => f c >>= fun s => Reader.settle (g s.1) s.2) c := by
  intro b e h
  cases hfc : f c with
  | error err => simp [hfc, Bind.bind, Except.bind] at h
  | ok s =>
    obtain ⟨a, d⟩ := s
    obtain ⟨read, hrest, hread⟩ := hf a d hfc
    cases hg : g a with
    | error fault => simp [hfc, hg, Bind.bind, Except.bind, Reader.settle, Cursor.failHere] at h
    | ok b' =>
      simp only [hfc, hg, Bind.bind, Except.bind, Reader.settle, Except.ok.injEq,
        Prod.mk.injEq] at h
      obtain ⟨rfl, rfl⟩ := h
      exact ⟨read, hrest, fun rest place hstop => by
        simp only [hread rest place hstop, hg, Bind.bind, Except.bind, Reader.settle]⟩

theorem map (g : α → β) (hf : LocalAt p f c) :
    LocalAt p (fun c => (f c).map fun s => (g s.1, s.2)) c :=
  (hf.check fun a => .ok (g a)).congr fun c _ => by cases f c <;> rfl

theorem any (hf : LocalAt noChar f c) : LocalAt q f c :=
  hf.mono fun _ h => by cases h

/-- Reading one character and going on in a way that depends on it. -/
theorem first {x : Char} {rest : List Char} {place : Place} {g : Reader α}
    (hfg : ∀ rest place, f ⟨x :: rest, place⟩ = g ⟨rest, place.after x⟩)
    (hg : LocalAt p g ⟨rest, place.after x⟩) : LocalAt p f ⟨x :: rest, place⟩ := by
  intro a d h
  obtain ⟨read, hrest, hread⟩ := hg a d (hfg rest place ▸ h)
  refine ⟨x :: read, congrArg (List.cons x) hrest, fun rest place hstop => ?_⟩
  rw [List.cons_append, hfg, hread rest _ hstop, List.foldl_cons]

/-- Reading as another reader does whenever this character comes first. -/
theorem of_first {x : Char} {rest : List Char} {place : Place} {g : Reader α}
    (hfg : ∀ rest place, f ⟨x :: rest, place⟩ = g ⟨x :: rest, place⟩)
    (hnil : ∀ place s, g ⟨[], place⟩ ≠ .ok s) (hg : LocalAt p g ⟨x :: rest, place⟩) :
    LocalAt p f ⟨x :: rest, place⟩ := by
  intro a d h
  obtain ⟨read, hrest, hread⟩ := hg a d (hfg rest place ▸ h)
  refine ⟨read, hrest, fun rest place hstop => ?_⟩
  cases read with
  | nil => exact absurd (hread [] place nofun) (hnil _ _)
  | cons y read =>
    cases hrest
    exact (hfg _ _).trans (hread rest place hstop)

/-- Reading nothing here, and nothing wherever no character of the class comes first. -/
theorem stay {a : α} (h : f c = .ok (a, c)) (hf : ∀ d, NotFirst p d.rest → f d = .ok (a, d)) :
    LocalAt p f c := by
  intro b d heq
  cases h.symm.trans heq
  exact ⟨[], rfl, fun rest place hstop => hf ⟨rest, place⟩ hstop⟩

end LocalAt

/-! ## Classes of characters -/

/-- Characters of a class are read up to the first one outside of it. -/
theorem span_append {p : Char → Bool} {read rest : List Char} (hread : ∀ x ∈ read, p x)
    (hrest : NotFirst p rest) (place : Place) :
    (Cursor.mk (read ++ rest) place).span p = (read, ⟨rest, read.foldl Place.after place⟩) := by
  have htake : rest.takeWhile p = [] := by
    cases rest with
    | nil => rfl
    | cons x rest => simp [hrest x rfl]
  have hdrop : rest.dropWhile p = rest := by
    cases rest with
    | nil => rfl
    | cons x rest => simp [hrest x rfl]
  simp [Cursor.span, List.takeWhile_append_of_pos hread, List.dropWhile_append_of_pos hread,
    htake, hdrop]

/-- What was read is of the class, and what follows is not. -/
theorem span_spec {c d : Cursor} {p : Char → Bool} {read : List Char}
    (h : c.span p = (read, d)) :
    c.rest = read ++ d.rest ∧ (∀ x ∈ read, p x) ∧ NotFirst p d.rest ∧
      d.place = read.foldl Place.after c.place := by
  simp only [Cursor.span, Prod.mk.injEq] at h
  obtain ⟨rfl, rfl⟩ := h
  refine ⟨List.takeWhile_append_dropWhile.symm, List.all_eq_true.mp List.all_takeWhile, ?_, rfl⟩
  intro x hx
  have := List.head?_dropWhile_not p c.rest
  simp_all

theorem skipBlanks_append {blanks rest : List Char} (hblanks : ∀ x ∈ blanks, Cursor.isBlank x)
    (hrest : NotFirst Cursor.isBlank rest) (place : Place) :
    (Cursor.mk (blanks ++ rest) place).skipBlanks = ⟨rest, blanks.foldl Place.after place⟩ := by
  rw [Cursor.skipBlanks, span_append hblanks hrest]

theorem skipBlanks_of_notFirst {text : List Char} (h : NotFirst Cursor.isBlank text)
    (place : Place) : (Cursor.mk text place).skipBlanks = ⟨text, place⟩ :=
  skipBlanks_append (List.forall_mem_nil _) h place

/-- Reading blanks and then something that is not nothing. -/
theorem LocalAt.blanks {p : Char → Bool} {f g : Reader α} {c : Cursor}
    (hfg : ∀ c, f c = g c.skipBlanks) (hnil : ∀ place s, g ⟨[], place⟩ ≠ .ok s)
    (hg : LocalAt p g c.skipBlanks) : LocalAt p f c := by
  intro a d h
  obtain ⟨read, hrest, hread⟩ := hg a d (hfg c ▸ h)
  cases hspan : c.span Cursor.isBlank with
  | mk blanks e =>
    obtain ⟨happend, hblanks, hfirst, -⟩ := span_spec hspan
    rw [Cursor.skipBlanks, hspan] at hrest
    rw [hrest] at happend hfirst
    refine ⟨blanks ++ read, by rw [happend, List.append_assoc], fun rest place hstop => ?_⟩
    cases read with
    | nil => exact absurd (hread [] place nofun) (hnil _ _)
    | cons x read =>
      have hfirst : NotFirst Cursor.isBlank (x :: read ++ rest) := hfirst
      rw [hfg, List.append_assoc, skipBlanks_append hblanks hfirst, hread rest _ hstop,
        List.foldl_append]

end TreeWalk.Json
