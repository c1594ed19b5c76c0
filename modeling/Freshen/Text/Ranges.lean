/-!
# Ranges of code points

- `Ranges.contain`: whether a character lies in one of several closed ranges.
-/

namespace Freshen.Ranges

/-- Whether a character lies in one of the ranges. -/
def contain (ranges : List (Nat × Nat)) (c : Char) : Bool :=
  ranges.any fun (first, last) => first ≤ c.toNat && c.toNat ≤ last

end Freshen.Ranges
