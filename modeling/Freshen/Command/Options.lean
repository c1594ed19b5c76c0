import Freshen.Command.Error

/-!
# Options of the rename command

- `RenameOptions.ofArgs`: the options that an argument list stands for.  Flags may stand anywhere,
  the last output path wins, and there is exactly one input path.
-/

namespace Freshen

/-- What the rename command is to do. -/
structure RenameOptions where
  input : String
  /-- Look at the result again. -/
  verify : Bool
  /-- Rename each callable on its own. -/
  parallel : Bool
  /-- Where to write the result, if not to the standard output. -/
  output : Option String
deriving DecidableEq

namespace RenameOptions

/-- Options as far as arguments were read; the input may still be missing. -/
structure Draft where
  input : Option String
  verify : Bool
  parallel : Bool
  output : Option String

/-- The options before any argument. -/
def Draft.empty : Draft := ⟨none, false, false, none⟩

/-- Reads arguments from left to right. -/
def Draft.read (d : Draft) : List String → Except UsageError Draft
  | [] => .ok d
  | arg :: args =>
      if arg = "--verify" then Draft.read { d with verify := true } args
      else if arg = "--parallel" then Draft.read { d with parallel := true } args
      else if arg = "-o" ∨ arg = "--output" then
        match args with
        | [] => .error (.needsPath arg)
        | path :: args => Draft.read { d with output := some path } args
      else if arg.toList.head? = some '-' then .error (.unknownOption arg)
      else if d.input.isNone then Draft.read { d with input := some arg } args
      else .error (.unexpectedArgument arg)

/-- The options that an argument list stands for. -/
def ofArgs (args : List String) : Except UsageError RenameOptions := do
  let d ← Draft.empty.read args
  match d.input with
  | some input => return ⟨input, d.verify, d.parallel, d.output⟩
  | none => throw .missingPath

end RenameOptions

end Freshen
