import Freshen.Tree.Type

/-!
# Binding sites

The places where a callable introduces a local name: parameters and binding patterns.

- `Binder`: one bound name with its optional annotation.
- `Pattern`, `Params`: trees of binders; `Pattern.names` and `Params.names` list what they bind,
  from left to right.
- Equality of both is decidable, node by node (`Pattern.same_iff`, `Params.same_iff`).
-/

namespace Freshen

/-- A bound name with its optional type annotation. -/
structure Binder where
  name : Name
  type : Option TypeExpr
  span : Span
deriving DecidableEq

/-- What a `let` or a `for` binds. -/
inductive Pattern where
  /-- A single name. -/
  | binder (binder : Binder)
  /-- `(items)`, taken apart position by position. -/
  | tuple (items : List Pattern) (span : Span)
  /-- `_`, which binds nothing. -/
  | discard (span : Span)
  /-- A place where no pattern could be made out; it binds nothing. -/
  | invalid (span : Span)

/-- The parameters of a callable. -/
inductive Params where
  /-- A single named parameter. -/
  | binder (binder : Binder)
  /-- `(items)`, a tuple of parameters. -/
  | tuple (items : List Params) (span : Span)
  /-- `_`, a parameter without a name. -/
  | unnamed (span : Span)

namespace Pattern

/-- Where the pattern stands. -/
def span : Pattern → Span
  | binder b => b.span
  | tuple _ s => s
  | discard s => s
  | invalid s => s

mutual

/-- The names that the pattern binds, from left to right. -/
def names : Pattern → List Name
  | binder b => [b.name]
  | tuple items _ => namesList items
  | discard _ => []
  | invalid _ => []

/-- The names that a list of patterns binds. -/
def namesList : List Pattern → List Name
  | [] => []
  | p :: ps => names p ++ namesList ps

end

mutual

/-- Compares two patterns node by node, spans included. -/
def same : Pattern → Pattern → Bool
  | binder b, binder b' => b == b'
  | tuple is s, tuple is' s' => sameList is is' && s == s'
  | discard s, discard s' => s == s'
  | invalid s, invalid s' => s == s'
  | _, _ => false

/-- Compares two lists of patterns. -/
def sameList : List Pattern → List Pattern → Bool
  | [], [] => true
  | p :: ps, p' :: ps' => same p p' && sameList ps ps'
  | _, _ => false

end

mutual

/-- The comparison of patterns accepts a pattern and itself. -/
theorem same_refl : ∀ p : Pattern, same p p = true
  | binder _ => by simp [same]
  | tuple is _ => by simp [same, sameList_refl is]
  | discard _ => by simp [same]
  | invalid _ => by simp [same]

/-- Every list of patterns is the same as itself. -/
theorem sameList_refl : ∀ ps : List Pattern, sameList ps ps = true
  | [] => rfl
  | p :: ps => by simp [sameList, same_refl p, sameList_refl ps]

end

mutual

/-- Patterns that compare as the same are equal. -/
theorem eq_of_same : ∀ {p p' : Pattern}, same p p' = true → p = p'
  | binder _, binder _, h => by rw [beq_iff_eq.1 h]
  | tuple is _, tuple is' _, h => by
      simp only [same, Bool.and_eq_true, beq_iff_eq] at h
      rw [eq_of_sameList h.1, h.2]
  | discard _, discard _, h => by rw [beq_iff_eq.1 h]
  | invalid _, invalid _, h => by rw [beq_iff_eq.1 h]

/-- Lists of patterns that compare as the same are equal. -/
theorem eq_of_sameList : ∀ {ps ps' : List Pattern}, sameList ps ps' = true → ps = ps'
  | [], [], _ => rfl
  | p :: ps, p' :: ps', h => by
      simp only [sameList, Bool.and_eq_true] at h
      rw [eq_of_same h.1, eq_of_sameList h.2]

end

/-- Comparing node by node decides equality. -/
theorem same_iff {p p' : Pattern} : same p p' = true ↔ p = p' :=
  ⟨eq_of_same, fun h => h ▸ same_refl p⟩

end Pattern

/-- Patterns are compared by structure. -/
instance : DecidableEq Pattern := fun _ _ => decidable_of_iff _ Pattern.same_iff

namespace Params

mutual

/-- The names of the parameters, from left to right. -/
def names : Params → List Name
  | binder b => [b.name]
  | tuple items _ => namesList items
  | unnamed _ => []

/-- The names in a list of parameters. -/
def namesList : List Params → List Name
  | [] => []
  | p :: ps => names p ++ namesList ps

end

mutual

/-- Compares two parameter trees node by node, spans included. -/
def same : Params → Params → Bool
  | binder b, binder b' => b == b'
  | tuple is s, tuple is' s' => sameList is is' && s == s'
  | unnamed s, unnamed s' => s == s'
  | _, _ => false

/-- Compares two lists of parameters. -/
def sameList : List Params → List Params → Bool
  | [], [] => true
  | p :: ps, p' :: ps' => same p p' && sameList ps ps'
  | _, _ => false

end

mutual

/-- The comparison of parameters accepts parameters and themselves. -/
theorem same_refl : ∀ p : Params, same p p = true
  | binder _ => by simp [same]
  | tuple is _ => by simp [same, sameList_refl is]
  | unnamed _ => by simp [same]

/-- Every list of parameters is the same as itself. -/
theorem sameList_refl : ∀ ps : List Params, sameList ps ps = true
  | [] => rfl
  | p :: ps => by simp [sameList, same_refl p, sameList_refl ps]

end

mutual

/-- Parameters that compare as the same are equal. -/
theorem eq_of_same : ∀ {p p' : Params}, same p p' = true → p = p'
  | binder _, binder _, h => by rw [beq_iff_eq.1 h]
  | tuple is _, tuple is' _, h => by
      simp only [same, Bool.and_eq_true, beq_iff_eq] at h
      rw [eq_of_sameList h.1, h.2]
  | unnamed _, unnamed _, h => by rw [beq_iff_eq.1 h]

/-- Lists of parameters that compare as the same are equal. -/
theorem eq_of_sameList : ∀ {ps ps' : List Params}, sameList ps ps' = true → ps = ps'
  | [], [], _ => rfl
  | p :: ps, p' :: ps', h => by
      simp only [sameList, Bool.and_eq_true] at h
      rw [eq_of_same h.1, eq_of_sameList h.2]

end

/-- Comparing node by node decides equality. -/
theorem same_iff {p p' : Params} : same p p' = true ↔ p = p' :=
  ⟨eq_of_same, fun h => h ▸ same_refl p⟩

end Params

/-- Parameters are compared by structure. -/
instance : DecidableEq Params := fun _ _ => decidable_of_iff _ Params.same_iff

end Freshen
