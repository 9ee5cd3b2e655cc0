-- SUMMARY: What the arguments of a command line ask for.
import TreeWalk.Context

/-! # Arguments

Arguments are taken from left to right, and the first thing that settles the
matter wins: something wrong, or the wish to see the version or the help. Only
when all have been taken is it checked that exactly one file was named.

Options are written as `--option value`, `--option=value`, or with one letter as
`-o value`, `-ovalue`, `-o=value`. Letters without values can be run together.
What comes after `--` is no option, and neither is `-` alone.
-/

namespace TreeWalk.CommandLine

/-- What is wrong with a command line. -/
inductive UsageError where
  | unknownOption (option : String)
  | repeatedOption (option : String)
  | missingValue (option : String)
  | unwantedValue (option : String)
  | notADepth (text : String)
  | emptyFile
  | severalFiles
  | fileGivenTwice
  | noFile
  deriving DecidableEq, Repr

/-- Why no more arguments are looked at. -/
inductive Stop where
  | version
  | help
  | error (e : UsageError)
  deriving DecidableEq, Repr

/-- What the arguments so far have set. The file can be named by an option or by
    itself. -/
structure Arguments where
  debug : Bool := false
  depth : Option Nat := none
  option : Option String := none
  path : Option String := none
  deriving DecidableEq, Repr

/-- A run that was asked for. -/
structure Request where
  debug : Bool
  limits : Limits
  file : String
  deriving DecidableEq, Repr

/-- Depths are below this. -/
def depthLimit : Nat := Nat.pow 2 64

/-- The number that a text writes in digits, with or without a plus. -/
def depth? (text : String) : Option Nat :=
  let digits := match text.toList with
    | '+' :: digits => digits
    | digits => digits
  if digits.isEmpty || !digits.all Char.isDigit then none
  else
    let n := digits.foldl (fun n c => n * 10 + (c.toNat - '0'.toNat)) 0
    if n < depthLimit then some n else none

namespace Arguments

def fail {α : Type} (e : UsageError) : Except Stop α :=
  .error (.error e)

def setDebug (a : Arguments) : Except Stop Arguments :=
  if a.debug then fail (.repeatedOption "--debug") else .ok { a with debug := true }

def setDepth (a : Arguments) (text : String) : Except Stop Arguments :=
  if a.depth.isSome then fail (.repeatedOption "--max-call-depth")
  else
    match depth? text with
    | some n => .ok { a with depth := some n }
    | none => fail (.notADepth text)

def setOption (a : Arguments) (file : String) : Except Stop Arguments :=
  if a.option.isSome then fail (.repeatedOption "--file")
  else if file.isEmpty then fail .emptyFile
  else .ok { a with option := some file }

def setPath (a : Arguments) (file : String) : Except Stop Arguments :=
  if a.path.isSome then fail .severalFiles
  else if file.isEmpty then fail .emptyFile
  else .ok { a with path := some file }

/-- Whether an argument is an option, or the end of them, and so no value. -/
def isOption (argument : String) : Bool :=
  match argument.toList with
  | '-' :: _ :: _ => true
  | _ => false

/-- Arguments that are no options whatever they look like. -/
def takePaths (a : Arguments) : List String → Except Stop Arguments
  | [] => .ok a
  | path :: rest => do (← a.setPath path).takePaths rest

/-- What an argument leaves to be done: nothing, or to give the next argument to
    an option. -/
inductive Pending where
  | done (a : Arguments)
  | value (option : String) (set : String → Except Stop Arguments)

/-- An option that wants a value, which stands behind an equals sign or in the
    next argument. -/
def takeValue (option : String) (attached : Option String)
    (set : String → Except Stop Arguments) : Except Stop Pending :=
  match attached with
  | some value => (set value).map .done
  | none => .ok (.value option set)

/-- An option that has no value. -/
def takeFlag (option : String) (attached : Option String) (act : Except Stop Arguments) :
    Except Stop Pending :=
  match attached with
  | some _ => fail (.unwantedValue option)
  | none => act.map .done

/-- The name of a long option and the value behind its equals sign. -/
def splitLong (text : List Char) : String × Option String :=
  match text.span (· ≠ '=') with
  | (name, []) => (String.ofList name, none)
  | (name, _ :: value) => (String.ofList name, some (String.ofList value))

/-- An option that is written in full, without its dashes. -/
def takeLong (a : Arguments) (text : List Char) : Except Stop Pending :=
  let (name, attached) := splitLong text
  let option := "--" ++ name
  match name with
  | "debug" => takeFlag option attached a.setDebug
  | "version" => takeFlag option attached (.error .version)
  | "help" => takeFlag option attached (.error .help)
  | "max-call-depth" => takeValue option attached a.setDepth
  | "file" => takeValue option attached a.setOption
  | _ => fail (.unknownOption option)

/-- The value that is run together with the letter of its option. -/
def attachedToLetter : List Char → Option String
  | [] => none
  | '=' :: value => some (String.ofList value)
  | value => some (String.ofList value)

/-- Options of one letter each. The first one with a value takes all that
    follows. -/
def takeLetters (a : Arguments) : List Char → Except Stop Pending
  | [] => .ok (.done a)
  | 'd' :: letters => do (← a.setDebug).takeLetters letters
  | 'V' :: _ => .error .version
  | 'h' :: _ => .error .help
  | 'f' :: value => takeValue "--file" (attachedToLetter value) a.setOption
  | letter :: _ => fail (.unknownOption ("-" ++ letter.toString))

/-- An argument before `--`. -/
def take (a : Arguments) (argument : String) : Except Stop Pending :=
  match argument.toList with
  | '-' :: '-' :: text => a.takeLong text
  | '-' :: letter :: letters => a.takeLetters (letter :: letters)
  | _ => (a.setPath argument).map .done

/-- Takes all arguments. -/
def takeAll (a : Arguments) : List String → Except Stop Arguments
  | [] => .ok a
  | "--" :: paths => a.takePaths paths
  | argument :: rest => do
      match ← a.take argument, rest with
      | .done a, rest => a.takeAll rest
      | .value option _, [] => fail (.missingValue option)
      | .value option set, value :: rest =>
          if isOption value then fail (.missingValue option) else (← set value).takeAll rest

/-- The run that is asked for, once all arguments are taken. -/
def request (a : Arguments) : Except Stop Request :=
  let limits : Limits := ⟨a.depth.getD defaultMaxCallDepth⟩
  match a.path, a.option with
  | some _, some _ => fail .fileGivenTwice
  | some file, none | none, some file => .ok ⟨a.debug, limits, file⟩
  | none, none => fail .noFile

end Arguments

/-- What a command line asks for. -/
def readArguments (arguments : List String) : Except Stop Request := do
  (← Arguments.takeAll {} arguments).request

end TreeWalk.CommandLine
