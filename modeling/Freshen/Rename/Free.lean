import Freshen.Traversal.Observer
import Std.Data.TreeSet

/-!
# Free references of a callable

A reference is free if no binding around it has its name.  The scan opens frames like a renaming
does: parameters stand in a root frame, every block has a frame, a `repeat` has one frame for its
body, its condition and its fixup, a `for` has one for its pattern and its body.

- `Callable.freeLocals`: the free references, sorted and without repeats.
-/

namespace Freshen

/-- What a scan for free references has to remember. -/
structure FreeScan where
  /-- The names bound in each open frame, the innermost first. -/
  frames : List (Std.TreeSet Name)
  /-- The next block opens no frame of its own. -/
  sharesNext : Bool
  free : Std.TreeSet Name

namespace FreeScan

/-- A root frame in which nothing is bound. -/
def start : FreeScan := ⟨[{}], false, {}⟩

/-- Binds a name in the innermost frame. -/
def bind (s : FreeScan) (name : Name) : FreeScan :=
  match s.frames with
  | [] => s
  | frame :: frames => { s with frames := frame.insert name :: frames }

/-- Notes a reference. -/
def refer (s : FreeScan) (name : Name) : FreeScan :=
  if s.frames.any (·.contains name) then s else { s with free := s.free.insert name }

/-- Opens a frame. -/
def enter (s : FreeScan) : FreeScan := { s with frames := {} :: s.frames }

/-- Closes the innermost frame. -/
def exit (s : FreeScan) : FreeScan := { s with frames := s.frames.tail }

/-- Runs a walk in a frame of its own. -/
def inFrame (walk : StateM FreeScan Unit) : StateM FreeScan Unit := do
  modify enter
  walk
  modify exit

/-- The scan. -/
def observer : Observer (StateM FreeScan) where
  params p walk := do
    match p with
    | .binder b => modify (·.bind b.name)
    | _ => pure ()
    walk
  block _ walk := do
    if (← get).sharesNext then
      modify fun s => { s with sharesNext := false }
      walk
    else
      inFrame walk
  stmt t walk :=
    match t with
    | .loopUntil _ _ _ _ => inFrame do
        modify fun s => { s with sharesNext := true }
        walk
    | _ => walk
  loopFor source pattern body := do
    source
    inFrame do
      pattern
      body
  pattern p walk := do
    match p with
    | .binder b => modify (·.bind b.name)
    | _ => pure ()
    walk
  expr e walk := do
    match e with
    | .ref (.unqualified name) _ _ => modify (·.refer name)
    | _ => pure ()
    walk

end FreeScan

/-- The free references of a callable, sorted and without repeats. -/
def Callable.freeLocals (c : Callable) : List Name :=
  ((FreeScan.observer.visitCallable c).run FreeScan.start).2.free.toList

end Freshen
