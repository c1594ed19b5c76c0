import Freshen.Naming.Registry
import Freshen.Scope.Frames

/-!
# State of a renaming

A `Context` holds what renaming one callable has to remember: the names that are taken, the open
frames, whether the next block shares the innermost frame, and the references that no frame
resolved.

- `Renaming`: computations on a context that may fail; what they did before a failure stays done.
- `Context.reset`: the context at the start of a callable.
-/

namespace Freshen

/-- What renaming one callable has to remember. -/
structure Context where
  registry : Registry
  scopes : Scopes
  /-- The next block opens no frame of its own. -/
  sharesNext : Bool
  unresolved : Std.TreeSet Name

/-- A computation on a context.  After a failure the context is as the failing step left it. -/
abbrev Renaming := ExceptT ScopeError (StateM Context)

namespace Context

/-- The context at the start of a callable in which the names `reserved` are taken. -/
def start (reserved : List Name) : Context where
  registry := Registry.empty.reserveAll reserved
  scopes := Scopes.root
  sharesNext := false
  unresolved := {}

/-- The context of a renaming that has not begun. -/
def fresh : Context := start []

/-- The references that no frame resolved, sorted and without repeats. -/
def unresolvedNames (c : Context) : List Name := c.unresolved.toList

end Context

namespace Renaming

/-- Forgets everything but the names `reserved`, which are taken. -/
def reset (reserved : List Name) : Renaming Unit := set (Context.start reserved)

/-- Does `change` to the frames. -/
def onScopes (change : Scopes → Except ScopeError Scopes) : Renaming Unit := do
  let scopes ← change (← get).scopes
  modify fun c => { c with scopes := scopes }

/-- A free name for a new binding of `name`, which is bound in the innermost frame.  The name is
taken even if there is no frame. -/
def declare (name : Name) : Renaming Name := do
  let (replacement, registry) := (← get).registry.generate name
  modify fun c => { c with registry := registry }
  onScopes (·.bind name replacement)
  return replacement

/-- The replacement of `name`; a name without one is remembered. -/
def resolve (name : Name) : Renaming (Option Name) := do
  match (← get).scopes.lookup name with
  | some replacement => return some replacement
  | none =>
      modify fun c => { c with unresolved := c.unresolved.insert name }
      return none

/-- Opens a frame. -/
def enter : Renaming Unit := onScopes (.ok ·.enter)

/-- Closes the innermost frame. -/
def exit : Renaming Unit := onScopes (·.exit)

/-- Lets the next block share the innermost frame. -/
def share : Renaming Unit := modify fun c => { c with sharesNext := true }

/-- Whether this block shares the innermost frame; asking again says no. -/
def takeShared : Renaming Bool := do
  let shared := (← get).sharesNext
  modify fun c => { c with sharesNext := false }
  return shared

/-- Number of open frames. -/
def depth : Renaming Nat := return (← get).scopes.depth

end Renaming

end Freshen
