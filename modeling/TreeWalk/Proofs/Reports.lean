-- SUMMARY: Runs of texts and of files end alike, and the place of a report tells the stage it comes from.
import TreeWalk.Proofs.Entering
import TreeWalk.Run

/-! # Reports

A text can be run as it is or as the text of a file, which are two ways through the parser. They
give the same program, or they refuse the text for the same reason. Only the places of their
reports differ: without a file there is none, and with one there is a line exactly if the text was
no tree. What a program fails with has no place at all.
-/

namespace TreeWalk

/-! ## Causes -/

theorem RunError.kind_ne_invalidCharacter (cause : RunError) : cause.kind ≠ .invalidCharacter := by
  cases cause <;> exact ErrorKind.noConfusion

theorem ParseError.location_report (e : ParseError) : (e.report none).location = none := by
  cases e <;> rfl

theorem ParseError.kind_report (e : ParseError) (file : Option String) :
    (e.report file).kind = .invalidSyntax := by
  cases e <;> cases file <;> rfl

/-- The line that the stage of an error knows. -/
def ParseError.line? : ParseError → Option Nat
  | document e => some e.place.line
  | shape _ => none

theorem ParseError.report_some (e : ParseError) (file : String) :
    e.report (some file) = (e.report none).locate file e.line? := by
  cases e <;> rfl

/-! ## Parsing -/

theorem Program.parse_eq_document_iff {text : String} {e : Json.DocumentError} :
    parse text = .error (.document e) ↔ Json.readDocument text = .error e := by
  unfold parse
  cases Json.readDocument text with
  | error e => simp
  | ok tree =>
    simp only
    cases ofTree tree <;> simp

theorem Program.parse_eq_shape_iff {text : String} {cause : ShapeError} :
    parse text = .error (.shape cause) ↔
      ∃ tree, Json.readDocument text = .ok tree ∧ ofTree tree = .error cause := by
  unfold parse
  cases Json.readDocument text with
  | error e => simp
  | ok tree =>
    cases h : ofTree tree <;> simp [h]

/-- A line is known exactly where reading the text as a tree failed. -/
theorem ParseError.line?_eq_some_iff {text : String} {e : ParseError}
    (h : Program.parse text = .error e) {line : Nat} :
    e.line? = some line ↔ ∃ d, Json.readDocument text = .error d ∧ d.place.line = line := by
  cases e with
  | document d => simp [line?, Program.parse_eq_document_iff.mp h]
  | shape cause =>
    obtain ⟨tree, htree, -⟩ := Program.parse_eq_shape_iff.mp h
    simp [line?, htree]

/-- No line is known exactly where the tree was read and is no program. -/
theorem ParseError.line?_eq_none_iff {text : String} {e : ParseError}
    (h : Program.parse text = .error e) :
    e.line? = none ↔
      ∃ tree cause, Json.readDocument text = .ok tree ∧ Program.ofTree tree = .error cause := by
  cases e with
  | document d => simp [line?, Program.parse_eq_document_iff.mp h]
  | shape cause =>
    obtain ⟨tree, htree, hcause⟩ := Program.parse_eq_shape_iff.mp h
    simp [line?, htree, hcause]

/-! ## Running -/

/-- The outcome of running a text, once it is parsed. -/
def Outcome.ofParse (report : ParseError → Error) (limits : Limits) :
    Except ParseError Program → Outcome
  | .ok p => p.outcome limits
  | .error e => .refused (report e)

theorem outcome_runText (text : String) (limits : Limits) :
    (runText text limits).outcome =
      .ofParse (fun e => e.report none) limits (Program.parse text) := by
  unfold runText
  cases Program.parse text with
  | error e => rfl
  | ok p => exact p.outcome_runAfter limits #[]

theorem outcome_runFile (text file : String) (limits : Limits) :
    (runFile text file limits).outcome =
      .ofParse (fun e => e.report (some file)) limits (Program.parse text) := by
  unfold runFile
  rw [Program.parseNamed_eq]
  cases Program.parse text with
  | error e => rfl
  | ok p => exact p.outcome_runAfter limits #[.parsing file]

theorem Program.outcome_cases (p : Program) (limits : Limits) :
    (∃ v, p.outcome limits = .finished v) ∨
      ∃ cause : RunError, p.outcome limits = .failed cause.report := by
  unfold outcome
  cases (Lexical.run (Lexical.caller limits.maxCallDepth limits.maxCallDepth) .root
    (.program p)).1 with
  | ok v => exact .inl ⟨v, rfl⟩
  | error cause => exact .inr ⟨cause, rfl⟩

/-- A text ends in the same value or the same error of the program, whether it is
    run as it is or as the text of a file, and it is refused in both cases or in
    none. Errors of the program have no place and are never about characters.
    Refusals are the same syntax errors, but for the place: without a file there is
    none, and with one there is a line exactly if the text was no tree, rather than
    a tree that is no program. There is no other way for a run to end. -/
theorem entry_points_agree (text file : String) (limits : Limits) :
    (∀ v, (runFile text file limits).outcome = .finished v ↔
      (runText text limits).outcome = .finished v) ∧
    (∀ e, (runFile text file limits).outcome = .failed e ↔
      (runText text limits).outcome = .failed e) ∧
    ((∃ e, (runFile text file limits).outcome = .refused e) ↔
      ∃ e, (runText text limits).outcome = .refused e) ∧
    ((∃ v, (runText text limits).outcome = .finished v) ∨
      (∃ e, (runText text limits).outcome = .failed e ∧ e.location = none ∧
        e.kind ≠ .invalidCharacter) ∨
      ∃ e line, (runText text limits).outcome = .refused e ∧
        (runFile text file limits).outcome = .refused (e.locate file line) ∧
        e.kind = .invalidSyntax ∧ e.location = none ∧
        (∀ n, line = some n ↔ ∃ d, Json.readDocument text = .error d ∧ d.place.line = n) ∧
        (line = none ↔ ∃ tree cause,
          Json.readDocument text = .ok tree ∧ Program.ofTree tree = .error cause)) := by
  rw [outcome_runFile, outcome_runText]
  cases hparse : Program.parse text with
  | ok p =>
    refine ⟨fun _ => Iff.rfl, fun _ => Iff.rfl, Iff.rfl, ?_⟩
    rcases p.outcome_cases limits with hfinished | ⟨cause, hfailed⟩
    · exact .inl hfinished
    · exact .inr (.inl ⟨cause.report, hfailed, rfl, cause.kind_ne_invalidCharacter⟩)
  | error e =>
    refine ⟨fun _ => iff_of_false Outcome.noConfusion Outcome.noConfusion,
      fun _ => iff_of_false Outcome.noConfusion Outcome.noConfusion,
      iff_of_true ⟨_, rfl⟩ ⟨_, rfl⟩, .inr (.inr ⟨e.report none, e.line?, rfl, ?_⟩)⟩
    exact ⟨congrArg Outcome.refused (e.report_some file), e.kind_report none, e.location_report,
      fun _ => ParseError.line?_eq_some_iff hparse, ParseError.line?_eq_none_iff hparse⟩

end TreeWalk
