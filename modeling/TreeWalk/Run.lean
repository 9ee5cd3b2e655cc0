-- SUMMARY: Whole runs: of programs, of texts, and of files.
import TreeWalk.Evaluation.Basic
import TreeWalk.Program.Parse

/-! # Runs

A run starts from a fresh context, so programs that are run one after the other
know nothing of each other. Its outcome keeps texts that are no programs apart
from programs that fail.
-/

namespace TreeWalk

/-- How a run ends. -/
inductive Outcome where
  /-- with the value that the program returned, if it returned one -/
  | finished (value : Option Value)
  /-- before it started: the text is no program -/
  | refused (e : Error)
  /-- with an error of the program -/
  | failed (e : Error)
  /-- with a store that was asked for something it does not have -/
  | broken (fault : StoreFault)

/-- What a run leaves behind. -/
structure Run where
  outcome : Outcome
  log : Array Event

/-- Runs a program, after the events that are in the log already. -/
def Program.runAfter (p : Program) (limits : Limits) (log : Array Event) : Run :=
  match p.execute ⟨.new limits, log⟩ with
  | .ok (.ok value, s) => ⟨.finished value, s.log.push .finished⟩
  | .ok (.error cause, s) => ⟨.failed cause.report, s.log⟩
  | .error fault => ⟨.broken fault, log⟩

def Program.run (p : Program) (limits : Limits) : Run :=
  p.runAfter limits #[]

/-- Parses a text and runs the program that it is. -/
def runText (text : String) (limits : Limits) : Run :=
  match Program.parse text with
  | .ok p => p.run limits
  | .error e => ⟨.refused (e.report none), #[]⟩

/-- Parses the text of a file and runs the program that it is. Reports of errors
    in the text name the file. -/
def runFile (text file : String) (limits : Limits) : Run :=
  match Program.parseNamed text file with
  | .ok p => p.runAfter limits #[.parsing file]
  | .error e => ⟨.refused e, #[.parsing file]⟩

end TreeWalk
