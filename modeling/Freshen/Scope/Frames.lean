import Freshen.Tree.Type
import Std.Data.TreeMap

/-!
# Scope frames

A stack of frames, each of which maps names as written to the names that replace them.  An inner
frame hides the ones around it.

- `Scopes.enter`, `Scopes.exit`: open and close a frame.
- `Scopes.bind`: binds a name in the innermost frame; a later binding of the same name there wins.
- `Scopes.lookup`: the replacement in the innermost frame that has one.
-/

namespace Freshen

/-- Frames were opened and closed unevenly. -/
inductive ScopeError where
  /-- There is no frame for the operation. -/
  | underflow (operation : String)
  /-- A callable ended with another number of frames than its root frame. -/
  | unbalanced (depth : Nat)
deriving DecidableEq

/-- The wording of the error. -/
def ScopeError.message : ScopeError → String
  | underflow operation => s!"cannot {operation}: scope stack is empty"
  | unbalanced depth => s!"scope stack unbalanced after callable body: depth {depth}, expected 1"

/-- Names as written, and the names that replace them. -/
abbrev Frame := Std.TreeMap Name Name

/-- A stack of frames, the innermost first. -/
structure Scopes where
  frames : List Frame

namespace Scopes

/-- One empty root frame. -/
def root : Scopes := ⟨[{}]⟩

/-- Number of open frames. -/
def depth (s : Scopes) : Nat := s.frames.length

/-- Opens an empty frame. -/
def enter (s : Scopes) : Scopes := ⟨{} :: s.frames⟩

/-- Closes the innermost frame. -/
def exit (s : Scopes) : Except ScopeError Scopes :=
  match s.frames with
  | [] => .error (.underflow "exit scope")
  | _ :: frames => .ok ⟨frames⟩

/-- Binds `name` in the innermost frame. -/
def bind (s : Scopes) (name replacement : Name) : Except ScopeError Scopes :=
  match s.frames with
  | [] => .error (.underflow "bind name")
  | frame :: frames => .ok ⟨frame.insert name replacement :: frames⟩

/-- The replacement of `name` in the innermost frame that has one. -/
def lookup (s : Scopes) (name : Name) : Option Name := s.frames.findSome? (·[name]?)

end Scopes

end Freshen
