import Freshen.Grammar.Error
import Freshen.Rename.Bindings
import Freshen.Rename.Renamer
import Freshen.Report.Snippet

/-!
# Why a command fails

- `CommandError`: what can go wrong, from reading a file to checking the result.
- `CommandError.message`: the wording on one line.
- `CommandError.render`: what is shown; a parse error comes with the source line.
-/

namespace Freshen

/-- Why a file cannot be read. -/
inductive ReadFailure where
  | notFound
  | permissionDenied
  | invalidUtf8
  /-- Any other failure, in the system's words. -/
  | system (text : String)
deriving DecidableEq

/-- The wording for the file at `path`. -/
def ReadFailure.message (path : String) : ReadFailure → String
  | notFound => s!"cannot find file '{path}'"
  | permissionDenied => s!"permission denied reading '{path}'"
  | invalidUtf8 => s!"'{path}' contains invalid UTF-8 data"
  | system text => s!"error reading '{path}': {text}"

/-- What is wrong with the arguments of a command. -/
inductive UsageError where
  /-- An option stands without the path that it needs. -/
  | needsPath (option : String)
  | unknownOption (option : String)
  | unexpectedArgument (argument : String)
  | missingPath
deriving DecidableEq

/-- The wording of the error. -/
def UsageError.message : UsageError → String
  | needsPath option => s!"`{option}` needs a path"
  | unknownOption option => s!"unknown option `{option}`"
  | unexpectedArgument argument => s!"unexpected argument `{argument}`"
  | missingPath => "missing file path"

/-- Why a command fails. -/
inductive CommandError where
  | read (path : String) (failure : ReadFailure)
  /-- A file cannot be written; the reason in the system's words. -/
  | write (path : String) (reason : String)
  | parse (path source : String) (error : ParseError)
  | rename (error : RenameError)
  | verify (error : DuplicateBindings)
  | usage (error : UsageError)
deriving DecidableEq

namespace CommandError

/-- The wording on one line. -/
def message : CommandError → String
  | read path failure => failure.message path
  | write path reason => s!"cannot write '{path}': {reason}"
  | parse path _ error => s!"{path}: {error.message}"
  | rename error => error.message
  | verify error => s!"verification failed: {error.message}"
  | usage error => error.message

/-- What is shown to the user. -/
def render : CommandError → String
  | parse path source error => Report.render ⟨error.message, error.label, path, source, error.span⟩
  | other => s!"error: {other.message}\n"

end CommandError

end Freshen
