import Freshen.Command.Options
import Freshen.Command.Session
import Freshen.Command.Source

/-!
# The command line

- `CommandLine.session`: what the program does with its arguments.
- `CommandLine.usage`, `CommandLine.renameUsage` and the like: the texts that explain it.
-/

namespace Freshen.CommandLine

/-- Text whose lines are all ended. -/
def lines (texts : List String) : String := String.join (texts.map (· ++ "\n"))

/-- The version of the program. -/
def version : String := "0.1.0"

/-- How the program is used. -/
def usage : String := lines
  ["Uniq: unique local variable names",
    "",
    "Usage: uniq <command> [options]",
    "",
    "Commands:",
    "  rename <file.uq>     Rename every local binding to a unique name",
    "  fmt <file.uq>        Print a file in canonical layout",
    "  parse <file.uq>      Parse and display the syntax tree",
    "  demangle <name>...   Recover the base of generated names",
    "  help                 Show this help message",
    "  version              Show version information",
    "",
    "Rename options:",
    "  --verify            Check that every binding is unique afterwards",
    "  --parallel          Rename callables in parallel",
    "  -o <path>           Output file (default: stdout)",
    "",
    "Logging:",
    "  RUST_LOG=uniq_rename=trace   Trace every generated name and lookup",
    "  UNIQ_LOG_TREE=1              Indent log output by span"]

/-- How the rename command is used. -/
def renameUsage : String := lines
  ["Usage: uniq rename <file.uq> [options]",
    "",
    "Options:",
    "  --verify      Check that every binding is unique afterwards",
    "  --parallel    Rename callables in parallel",
    "  -o <path>     Output file (default: stdout)"]

/-- How the format command is used. -/
def formatUsage : String := lines ["Usage: uniq fmt <file.uq>"]

/-- How the parse command is used. -/
def parseUsage : String := lines ["Usage: uniq parse <file.uq>"]

/-- How the command for the bases of names is used. -/
def basesUsage : String := lines
  ["Usage: uniq demangle <name>...", "Example: uniq demangle __var2__x__"]

/-- A command that succeeds and prints a text. -/
def succeed (text : String) : Session := .done ⟨text, "", 0⟩

/-- A command that fails and prints a text to the error output. -/
def complain (text : String) : Session := .done ⟨"", text, 1⟩

/-- A command that fails with an error.  After a mistake in the arguments the help is pointed at. -/
def failWith (error : CommandError) : Session :=
  complain (error.render ++
    match error with
    | .usage _ => "Run `uniq help` for usage.\n"
    | _ => "")

/-- Prints a result or reports an error. -/
def finish : Except CommandError String → Session
  | .ok text => succeed text
  | .error e => failWith e

/-- Reads a file and goes on with its text. -/
def withFile (path : String) (next : String → Session) : Session :=
  .read path fun
    | .ok source => next source
    | .error failure => failWith (.read path failure)

/-- The rename command. -/
def rename (options : RenameOptions) : Session :=
  withFile options.input fun source =>
    match Command.rename options.input source options.verify options.parallel with
    | .error e => failWith e
    | .ok text =>
        match options.output with
        | none => succeed text
        | some path => .write path text fun
          | .ok () => succeed ""
          | .error reason => failWith (.write path reason)

/-- What the program does with its arguments. -/
def session : List String → Session
  | [] => succeed usage
  | command :: args =>
      match command with
      | "rename" =>
          if args.isEmpty then complain renameUsage
          else match RenameOptions.ofArgs args with
            | .ok options => rename options
            | .error e => failWith (.usage e)
      | "fmt" =>
          match args with
          | [] => complain formatUsage
          | path :: _ => withFile path fun source => finish (Command.format path source)
      | "parse" =>
          match args with
          | [] => complain parseUsage
          | path :: _ => withFile path fun source => finish (Command.describe path source)
      | "demangle" => if args.isEmpty then complain basesUsage else succeed (Command.bases args)
      | "help" | "--help" | "-h" => succeed usage
      | "version" | "--version" | "-v" => succeed s!"Uniq {version}\n"
      | _ => .done ⟨usage, s!"Unknown command: {command}\n\n", 1⟩

end Freshen.CommandLine
