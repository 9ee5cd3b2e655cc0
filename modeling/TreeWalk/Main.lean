-- SUMMARY: The command.
import TreeWalk.CommandLine.Response

/-! # The command

Reads the arguments and the file, and prints the response. What it prints is
settled in `TreeWalk.CommandLine`.
-/

open TreeWalk.CommandLine

/-- Why the system did not let a file be read. -/
def readErrorOf : IO.Error → ReadError
  | .noFileOrDirectory .. => .missing
  | .inappropriateType _ 20 _ => .notADirectory
  | .inappropriateType .. => .isADirectory
  | e => .other e.toString

def readText (file : String) : IO (Except ReadError String) := do
  try
    return decode (← IO.FS.readBinFile file)
  catch e =>
    return .error (readErrorOf e)

def main (arguments : List String) : IO UInt32 := do
  let response ← match readArguments arguments with
    | .error stop => pure (respondToStop stop)
    | .ok request => pure (respond request (← readText request.file))
  (← IO.getStdout).putStr response.stdout
  (← IO.getStderr).putStr response.stderr
  return response.exit.toUInt32
