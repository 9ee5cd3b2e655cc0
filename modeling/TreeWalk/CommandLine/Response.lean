-- SUMMARY: What the command prints, and the code it ends with.
import TreeWalk.CommandLine.Arguments
import TreeWalk.CommandLine.Directory
import TreeWalk.Run

/-! # Responses

What a command line leads to, as a value: two texts and a code. With debug
output, the events of the run down to the debug level stand before its result.
-/

namespace TreeWalk.CommandLine

structure Response where
  exit : UInt8
  stdout : String
  stderr : String
  deriving DecidableEq, Repr

def programName : String := "arbor"

def programVersion : String := "0.1.0"

/-! ### Codes -/

def unreadable : UInt8 := 1

def misused : UInt8 := 2

def refused : UInt8 := 3

def failed : UInt8 := 4

/-- The code of a run that one of its stores stopped. -/
def broken : UInt8 := 101

/-! ### Events -/

/-- The line for an event. Below the level of information it names the thread,
    of which there is one, and the part of the program. -/
def eventLine (e : Event) : String :=
  match e.level with
  | .info => "[INFO] " ++ e.message ++ "\n"
  | level => "[" ++ level.text ++ "] (1) " ++ e.target ++ ": " ++ e.message ++ "\n"

/-- Whether debug output shows an event. -/
def shown (e : Event) : Bool :=
  e.level ≠ .trace

def eventLines (log : Array Event) : String :=
  String.join ((log.toList.filter shown).map eventLine)

/-! ### Responses -/

def usage : String :=
  "Usage: " ++ programName ++ " [-d|--debug] [--max-call-depth N] FILE\n"
    ++ "       " ++ programName ++ " [-d|--debug] [--max-call-depth N] -f|--file FILE\n"
    ++ "       " ++ programName ++ " -V|--version\n"
    ++ "       " ++ programName ++ " -h|--help\n"

def UsageError.text : UsageError → String
  | unknownOption option => "unknown option " ++ option
  | repeatedOption option => option ++ " is given more than once"
  | missingValue option => option ++ " needs a value"
  | unwantedValue option => option ++ " has no value"
  | notADepth text => "'" ++ text ++ "' is no depth"
  | emptyFile => "the name of the file is empty"
  | severalFiles => "more than one file is named"
  | fileGivenTwice => "the file is named by itself and by an option"
  | noFile => "no file is named"

/-- The response to arguments that ask for no run. -/
def respondToStop : Stop → Response
  | .version => ⟨0, programName ++ " " ++ programVersion ++ "\n", ""⟩
  | .help => ⟨0, usage, ""⟩
  | .error e => ⟨misused, "", programName ++ ": " ++ e.text ++ "\n" ++ usage⟩

/-- What a run prints about how it ended. -/
def respondToOutcome (events : String) : Outcome → Response
  | .finished (some value) => ⟨0, events ++ value.text ++ "\n", ""⟩
  | .finished none => ⟨0, events, ""⟩
  | .refused e => ⟨refused, events, e.text ++ "\n"⟩
  | .failed e => ⟨failed, events, e.text ++ "\n"⟩
  | .broken _ => ⟨broken, events, "a scope or a table is missing\n"⟩

/-- The response to a request, given what reading its file gave. -/
def respond (r : Request) (text : Except ReadError String) : Response :=
  match text with
  | .error e => ⟨unreadable, "", "Failed to read " ++ r.file ++ ": " ++ e.text ++ "\n"⟩
  | .ok text =>
      let run := runFile text r.file r.limits
      let log := #[Event.read text.utf8ByteSize r.file] ++ run.log
      respondToOutcome (if r.debug then eventLines log else "") run.outcome

/-- What a command line leads to in a directory. -/
def respondIn (directory : Directory) (arguments : List String) : Response :=
  match readArguments arguments with
  | .error stop => respondToStop stop
  | .ok r => respond r (directory.read r.file >>= decode)

end TreeWalk.CommandLine
