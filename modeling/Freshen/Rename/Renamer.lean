import Freshen.Rename.Free
import Freshen.Scope.Context
import Freshen.Traversal.Rebuilder

/-!
# Renaming

Renaming gives every binding of a callable a name that no other binding of the callable has, and
every reference the name of the binding that it refers to.

* Parameters stand in a root frame.
* Every block opens a frame, unless it is to share the innermost one.
* A `repeat` opens one frame, which its body shares; its condition and its fixup stand in it, and
  the fixup's block opens a frame inside it.
* A `for` opens a frame for its pattern, around the frame of its body; its source stands outside.
* A reference that no frame resolves stays, and no binding is given its name: free references are
  reserved before anything is renamed.

- `Callable.rename`: renames one callable.
- `Program.rename`: renames callables one after the other, on one context.
- `Program.renameApart`: renames each callable on a context of its own.
-/

namespace Freshen

/-- What renaming does at each kind of node. -/
def renamer : Rebuilder Renaming where
  callable c walk := do
    Renaming.reset c.freeLocals
    let renamed ← walk
    let depth ← Renaming.depth
    if depth = 1 then return renamed else throw (.unbalanced depth)
  params p walk :=
    match p with
    | .binder b => return .binder { b with name := ← Renaming.declare b.name }
    | _ => walk
  block _ walk := do
    if ← Renaming.takeShared then
      walk
    else
      Renaming.enter
      let b ← walk
      Renaming.exit
      return b
  loopFor _ _ _ source pattern body := do
    let e ← source
    Renaming.enter
    let p ← pattern
    let b ← body
    Renaming.exit
    return (e, p, b)
  loopUntil _ _ _ walk := do
    Renaming.enter
    Renaming.share
    let parts ← walk
    Renaming.exit
    return parts
  pattern p walk :=
    match p with
    | .binder b => return .binder { b with name := ← Renaming.declare b.name }
    | _ => walk
  reference target args s :=
    match target with
    | .unqualified name =>
        return .ref (.unqualified ((← Renaming.resolve name).getD name)) args s
    | .qualified _ _ => return .ref target args s

/-- Renaming a callable failed. -/
structure RenameError where
  callable : Name
  cause : ScopeError
deriving DecidableEq

/-- The wording of the error. -/
def RenameError.message (e : RenameError) : String :=
  s!"renaming `{e.callable}`: {e.cause.message}"

/-- Renames a callable on a context left by an earlier renaming. -/
def Callable.renameOn (c : Callable) (context : Context) : Except RenameError Callable × Context :=
  let (result, context) := (renamer.rebuildCallable c).run.run context
  (result.mapError (⟨c.name, ·⟩), context)

/-- Renames a callable. -/
def Callable.rename (c : Callable) : Except RenameError Callable := (c.renameOn .fresh).1

/-- Renames callables one after the other, up to the first failure. -/
def Callable.renameAllOn : List Callable → Context → Except RenameError (List Callable)
  | [], _ => .ok []
  | c :: cs, context =>
      match c.renameOn context with
      | (.ok c', context') => (Callable.renameAllOn cs context').map (c' :: ·)
      | (.error e, _) => .error e

/-- Renames each callable of a program, on one context. -/
def Program.rename (p : Program) : Except RenameError Program :=
  (Callable.renameAllOn p.callables .fresh).map Program.mk

/-- Renames each callable of a program on a context of its own. -/
def Program.renameApart (p : Program) : Except RenameError Program :=
  (p.callables.mapM Callable.rename).map Program.mk

end Freshen
