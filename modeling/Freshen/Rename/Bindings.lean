import Freshen.Traversal.Observer
import Std.Data.TreeMap

/-!
# Bound names of a callable

- `Callable.bindingNames`: the names at the binding sites, parameters first, in walk order.
- `Tally.repeated`: the names that a row holds more than once, each reported where it is first met.
- `Callable.duplicateBindings`: the names bound at more than one site, each once.
- `Callable.checkBindings`: accepts a callable that binds no name twice.
-/

namespace Freshen

/-- Collects the names at binding sites. -/
def bindingCollector : Observer (StateM (Array Name)) where
  params p walk := do
    match p with
    | .binder b => modify (·.push b.name)
    | _ => pure ()
    walk
  pattern p walk := do
    match p with
    | .binder b => modify (·.push b.name)
    | _ => pure ()
    walk

/-- A callable binds names at more than one site. -/
structure DuplicateBindings where
  callable : Name
  /-- Each repeated name once, in the order of first sites. -/
  duplicates : List Name
deriving DecidableEq

/-- The wording of the error. -/
def DuplicateBindings.message (e : DuplicateBindings) : String :=
  let names := ", ".intercalate (e.duplicates.map fun name => s!"`{name}`")
  s!"callable `{e.callable}` binds {names} more than once"

/-- How often names occur. -/
abbrev Tally := Std.TreeMap Name Nat

namespace Tally

/-- How often each name occurs in a row. -/
def ofNames (names : List Name) : Tally :=
  names.foldl (fun t name => t.insert name (t.getD name 0 + 1)) {}

/-- The names of a row that the tally holds more than once.  A name that was reported is set to zero,
so it is reported once. -/
def repeated (t : Tally) : List Name → List Name
  | [] => []
  | name :: names =>
      if 1 < t.getD name 0 then name :: repeated (t.insert name 0) names else repeated t names

end Tally

namespace Callable

/-- The names at the binding sites, in walk order. -/
def bindingNames (c : Callable) : List Name :=
  ((bindingCollector.visitCallable c).run #[]).2.toList

/-- The names bound at more than one site, in the order of first sites. -/
def duplicateBindings (c : Callable) : List Name :=
  (Tally.ofNames c.bindingNames).repeated c.bindingNames

/-- Accepts a callable that binds no name twice. -/
def checkBindings (c : Callable) : Except DuplicateBindings Unit :=
  match c.duplicateBindings with
  | [] => .ok ()
  | duplicates => .error ⟨c.name, duplicates⟩

end Callable

end Freshen
