import Freshen.Span

/-!
# Names and type annotations

Type annotations are carried along as written; nothing in this library resolves them.

- `TypeExpr`: a named type with arguments, a tuple of types, or an array type.
- Equality of annotations is decidable: `TypeExpr.same` compares node by node, and
  `TypeExpr.same_iff` says that it is equality.
-/

namespace Freshen

/-- The text of an identifier. -/
abbrev Name := String

/-- A type annotation. -/
inductive TypeExpr where
  /-- `Name` or `Name<args>`. -/
  | named (name : Name) (args : List TypeExpr) (span : Span)
  /-- `(items)`. -/
  | tuple (items : List TypeExpr) (span : Span)
  /-- `[elem]`. -/
  | array (elem : TypeExpr) (span : Span)

namespace TypeExpr

/-- Where the annotation stands. -/
def span : TypeExpr → Span
  | named _ _ s => s
  | tuple _ s => s
  | array _ s => s

mutual

/-- Compares two annotations node by node, spans included. -/
def same : TypeExpr → TypeExpr → Bool
  | named n as s, named n' as' s' => n == n' && sameList as as' && s == s'
  | tuple is s, tuple is' s' => sameList is is' && s == s'
  | array e s, array e' s' => same e e' && s == s'
  | _, _ => false

/-- Compares two lists of annotations. -/
def sameList : List TypeExpr → List TypeExpr → Bool
  | [], [] => true
  | t :: ts, t' :: ts' => same t t' && sameList ts ts'
  | _, _ => false

end

mutual

/-- The comparison of types accepts a type and itself. -/
theorem same_refl : ∀ t : TypeExpr, same t t = true
  | named _ as _ => by simp [same, sameList_refl as]
  | tuple is _ => by simp [same, sameList_refl is]
  | array e _ => by simp [same, same_refl e]

/-- Every list of types is the same as itself. -/
theorem sameList_refl : ∀ ts : List TypeExpr, sameList ts ts = true
  | [] => rfl
  | t :: ts => by simp [sameList, same_refl t, sameList_refl ts]

end

mutual

/-- Types that compare as the same are equal. -/
theorem eq_of_same : ∀ {t t' : TypeExpr}, same t t' = true → t = t'
  | named _ as _, named _ as' _, h => by
      simp only [same, Bool.and_eq_true, beq_iff_eq] at h
      rw [h.1.1, eq_of_sameList h.1.2, h.2]
  | tuple is _, tuple is' _, h => by
      simp only [same, Bool.and_eq_true, beq_iff_eq] at h
      rw [eq_of_sameList h.1, h.2]
  | array e _, array e' _, h => by
      simp only [same, Bool.and_eq_true, beq_iff_eq] at h
      rw [eq_of_same h.1, h.2]

/-- Lists of types that compare as the same are equal. -/
theorem eq_of_sameList : ∀ {ts ts' : List TypeExpr}, sameList ts ts' = true → ts = ts'
  | [], [], _ => rfl
  | t :: ts, t' :: ts', h => by
      simp only [sameList, Bool.and_eq_true] at h
      rw [eq_of_same h.1, eq_of_sameList h.2]

end

/-- Comparing node by node decides equality. -/
theorem same_iff {t t' : TypeExpr} : same t t' = true ↔ t = t' :=
  ⟨eq_of_same, fun h => h ▸ same_refl t⟩

end TypeExpr

/-- Types are compared by structure. -/
instance : DecidableEq TypeExpr := fun _ _ => decidable_of_iff _ TypeExpr.same_iff

end Freshen
