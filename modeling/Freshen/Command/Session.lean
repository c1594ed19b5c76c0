import Freshen.Command.Files

/-!
# Sessions with a file system

A command says which file it wants to read or write, and how it goes on from the answer.

- `Session`: a command as requests and the reactions to their answers.
- `Session.runOn`: the outcome of a session on a file system held in memory.
-/

namespace Freshen

/-- What a command leaves behind. -/
structure Outcome where
  stdout : String
  stderr : String
  code : Nat
deriving DecidableEq

/-- A command as requests and the reactions to their answers. -/
inductive Session where
  | done (outcome : Outcome)
  | read (path : String) (next : Except ReadFailure String → Session)
  /-- The answer to a request to write is the reason of a failure, in the system's words. -/
  | write (path text : String) (next : Except String Unit → Session)

/-- The outcome of a session on a file system, and the file system after it. -/
def Session.runOn (fs : Files) : Session → Outcome × Files
  | done outcome => (outcome, fs)
  | read path next => (next (fs.read path)).runOn fs
  | write path text next =>
      match fs.write path text with
      | .ok fs' => (next (.ok ())).runOn fs'
      | .error reason => (next (.error reason)).runOn fs

end Freshen
