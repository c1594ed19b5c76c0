import Freshen.Text.Decimal
import Freshen.Tree.Type

/-!
# Tagged names

A name that had to be told apart from others is written `__var{counter}__{base}__`: a tag, a decimal
counter, the base name, and a delimiter on each side of the base.

- `TaggedName.text`, `TaggedName.ofText?`: writing and reading.  Only what is written can be read:
  no leading zero, no empty base, no counter of `2 ^ 64` or more.
- `Name.tagged`: a base with a counter; counter 0 is the bare base.
- `Name.base`: a name without any of its layers of tags.
-/

namespace Freshen

/-- The parts of a tagged name. -/
structure TaggedName where
  counter : Nat
  base : Name
deriving DecidableEq

namespace TaggedName

/-- How a tagged name begins. -/
def tag : String := "__var"

/-- What stands before and after the base. -/
def delimiter : String := "__"

/-- Counters are below this bound. -/
def counterLimit : Nat := UInt64.size

/-- The written form. -/
def text (t : TaggedName) : Name := tag ++ toString t.counter ++ delimiter ++ t.base ++ delimiter

/-- What is left of `cs` after `start`. -/
def stripStart? : (start cs : List Char) → Option (List Char)
  | [], cs => some cs
  | _ :: _, [] => none
  | s :: start, c :: cs => if s = c then stripStart? start cs else none

/-- What is left of `cs` before `finish`. -/
def stripEnd? (finish cs : List Char) : Option (List Char) :=
  (stripStart? finish.reverse cs.reverse).map List.reverse

/-- Counter and base of a written form; the base as characters. -/
def parts? (cs : List Char) : Option (Nat × List Char) := do
  let rest ← stripStart? tag.toList cs
  let digits := rest.takeWhile Char.isDigit
  let counter := Decimal.value digits
  if digits = [] ∨ digits.head? = some '0' ∨ counterLimit ≤ counter then none
  else
    let inner ← stripStart? delimiter.toList (rest.dropWhile Char.isDigit)
    let base ← stripEnd? delimiter.toList inner
    if base = [] then none else some (counter, base)

/-- The parts of a name, if it is a written form. -/
def ofText? (name : Name) : Option TaggedName :=
  (parts? name.toList).map fun (counter, base) => ⟨counter, String.ofList base⟩

/-- What is left after a beginning is shorter by that beginning. -/
theorem length_of_stripStart? {start cs rest : List Char} (h : stripStart? start cs = some rest) :
    cs.length = start.length + rest.length := by
  induction start generalizing cs with
  | nil => simp_all [stripStart?]
  | cons s start ih =>
      cases cs with
      | nil => simp [stripStart?] at h
      | cons c cs =>
          simp only [stripStart?] at h
          split at h
          · have := ih h
            simp only [List.length_cons]
            omega
          · exact absurd h (by simp)

/-- What is left before an ending is shorter by that ending. -/
theorem length_of_stripEnd? {finish cs rest : List Char} (h : stripEnd? finish cs = some rest) :
    cs.length = finish.length + rest.length := by
  obtain ⟨r, hr, rfl⟩ := Option.map_eq_some_iff.1 h
  simpa using length_of_stripStart? hr

/-- The base is shorter than the written form. -/
theorem length_lt_of_parts? {cs base : List Char} {counter : Nat}
    (h : parts? cs = some (counter, base)) : base.length < cs.length := by
  simp only [parts?, Option.bind_eq_bind, Option.bind_eq_some_iff] at h
  obtain ⟨rest, hrest, h⟩ := h
  split at h
  · exact absurd h (by simp)
  · obtain ⟨inner, hinner, b, hb, h⟩ := by simpa only [Option.bind_eq_some_iff] using h
    split at h
    · exact absurd h (by simp)
    · simp only [Option.some.injEq, Prod.mk.injEq] at h
      obtain ⟨-, rfl⟩ := h
      have h1 := length_of_stripStart? hrest
      have h2 := length_of_stripStart? hinner
      have h3 := length_of_stripEnd? hb
      have h4 : (rest.dropWhile Char.isDigit).length ≤ rest.length :=
        (List.dropWhile_sublist _).length_le
      have h5 : tag.toList.length = 5 := by decide
      omega

/-- The characters of a name without any of its layers of tags. -/
def core (cs : List Char) : List Char :=
  match _h : parts? cs with
  | some (_, base) => core base
  | none => cs
termination_by cs.length
decreasing_by exact length_lt_of_parts? _h

end TaggedName

namespace Name

/-- `base` told apart by `counter`; counter 0 leaves it as it is. -/
def tagged (counter : Nat) (base : Name) : Name :=
  if counter = 0 then base else TaggedName.text ⟨counter, base⟩

/-- Whether a name has a tag. -/
def isTagged (name : Name) : Bool := (TaggedName.ofText? name).isSome

/-- The name without any of its layers of tags. -/
def base (name : Name) : Name := String.ofList (TaggedName.core name.toList)

end Name

end Freshen
