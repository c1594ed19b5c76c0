import Freshen.Command.Line

/-!
# The program

Runs a session on the files of the system.
-/

namespace Freshen

/-- The system's words for a failure, with its number. -/
def systemWords (e : IO.Error) : String :=
  match e with
  | .noFileOrDirectory _ code _ => s!"No such file or directory (os error {code})"
  | .inappropriateType _ code details => s!"{details} (os error {code})"
  | .permissionDenied _ code details => s!"{details} (os error {code})"
  | .invalidArgument _ code details => s!"{details} (os error {code})"
  | other => toString other

/-- Why a file could not be read. -/
def readFailure (e : IO.Error) : ReadFailure :=
  match e with
  | .noFileOrDirectory _ _ _ => .notFound
  | .permissionDenied _ _ _ => .permissionDenied
  | other => .system (systemWords other)

/-- Reads the text of a file. -/
def readText (path : String) : IO (Except ReadFailure String) := do
  try
    let content ← IO.FS.readBinFile path
    match String.fromUTF8? content with
    | some text => return .ok text
    | none => return .error .invalidUtf8
  catch e => return .error (readFailure e)

/-- Writes a text to a file. -/
def writeText (path text : String) : IO (Except String Unit) := do
  try
    IO.FS.writeFile path text
    return .ok ()
  catch e => return .error (systemWords e)

/-- Runs a session on the files of the system. -/
def Session.run : Session → IO Outcome
  | done outcome => return outcome
  | read path next => do (next (← readText path)).run
  | write path text next => do (next (← writeText path text)).run

end Freshen

/-- Runs the command line and prints what it leaves behind. -/
def main (args : List String) : IO UInt32 := do
  let outcome ← (Freshen.CommandLine.session args).run
  (← IO.getStdout).putStr outcome.stdout
  (← IO.getStderr).putStr outcome.stderr
  return outcome.code.toUInt32
