import Freshen.Command.Error
import Freshen.Grammar.Program
import Freshen.Layout.Printer
import Freshen.Tree.Dump

/-!
# Commands on source text

What each command makes of a source text and its path.

- `Command.format`: the text in canonical layout.
- `Command.describe`: a summary of each callable, and the tree.
- `Command.rename`: the text with unique local names.
- `Command.bases`: the bases of names.
-/

namespace Freshen.Command

/-- The program in a source text. -/
def load (path source : String) : Except CommandError Program :=
  (Program.parse source).mapError (.parse path source)

/-- The text in canonical layout. -/
def format (path source : String) : Except CommandError String :=
  (load path source).map Program.format

/-- What is said about a callable. -/
def summary (c : Callable) : String :=
  s!"fn {c.name} @ {c.span.text}: {c.params.names.length} param(s), " ++
    s!"{c.bindingNames.length} binding(s)\n"

/-- A summary of each callable, and the tree. -/
def describe (path source : String) : Except CommandError String :=
  (load path source).map fun p =>
    String.join (p.callables.map summary) ++ p.dump.pretty ++ "\n"

/-- The program with unique local names; `apart` renames each callable on its own. -/
def renameProgram (apart : Bool) (p : Program) : Except CommandError Program :=
  (if apart then p.renameApart else p.rename).mapError .rename

/-- Accepts a program in which no callable binds a name twice. -/
def verify (p : Program) : Except CommandError Unit :=
  p.callables.forM fun c => c.checkBindings.mapError .verify

/-- The text with unique local names; `checked` looks at the result again. -/
def rename (path source : String) (checked apart : Bool) : Except CommandError String := do
  let p ← load path source
  let renamed ← renameProgram apart p
  if checked then verify renamed
  return renamed.format

/-- The bases of names, each on a line of its own. -/
def bases (names : List Name) : String :=
  String.join (names.map fun name => Name.base name ++ "\n")

end Freshen.Command
