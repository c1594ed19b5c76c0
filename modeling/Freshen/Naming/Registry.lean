import Freshen.Naming.Tagged
import Std.Data.TreeSet

/-!
# Allocation of names

A `Registry` holds the names that are taken.  Names are told apart over the whole of one callable,
not per scope, so a name that was handed out is never handed out again.

- `Registry.generate`: hands out the base of a name if it is free, else the base with the least
  counter that is free.
- `Registry.reserve`: marks a name as taken.
-/

namespace Freshen

/-- The names that are taken. -/
structure Registry where
  names : Std.TreeSet Name

namespace Registry

/-- No name is taken. -/
def empty : Registry := ⟨{}⟩

/-- Whether a name is taken. -/
def contains (r : Registry) (name : Name) : Bool := r.names.contains name

/-- Number of names taken. -/
def size (r : Registry) : Nat := r.names.size

/-- Whether no name is taken. -/
def isEmpty (r : Registry) : Bool := r.names.isEmpty

/-- Marks a name as taken. -/
def reserve (r : Registry) (name : Name) : Registry := ⟨r.names.insert name⟩

/-- Marks several names as taken. -/
def reserveAll (r : Registry) (names : List Name) : Registry := names.foldl reserve r

/-- The first number from `k` on that is not taken, or `k + tries` if the `tries` numbers from `k`
on are all taken. -/
def leastFree (taken : Nat → Bool) : (tries k : Nat) → Nat
  | 0, k => k
  | tries + 1, k => if taken k then leastFree taken tries (k + 1) else k

/-- The least counter whose tagged form of `base` is free.  As many tries as there are names taken
suffice, because different counters give different names. -/
def freeCounter (r : Registry) (base : Name) : Nat :=
  leastFree (fun k => r.contains (Name.tagged k base)) r.size 0

/-- A free name with the base of `candidate`, and the registry in which it is taken. -/
def generate (r : Registry) (candidate : Name) : Name × Registry :=
  let base := Name.base candidate
  let name := Name.tagged (r.freeCounter base) base
  (name, r.reserve name)

end Registry

end Freshen
