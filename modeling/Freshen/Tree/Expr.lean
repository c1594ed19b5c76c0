import Freshen.Tree.Operator
import Freshen.Tree.Type

/-!
# Expressions

- `Reference`: what an identifier in an expression refers to.  One segment is a local name, a
  longer path is global and never renamed.
- `Expr`: the expression tree.
- Equality is decidable, node by node (`Expr.same_iff`).
-/

namespace Freshen

/-- An identifier in an expression. -/
inductive Reference where
  /-- One segment: a local name. -/
  | unqualified (name : Name)
  /-- `qualifiers::name`: a global name. -/
  | qualified (qualifiers : List Name) (name : Name)
deriving DecidableEq

/-- The source spelling, segments joined by `::`. -/
def Reference.text : Reference → String
  | unqualified name => name
  | qualified qualifiers name => "::".intercalate (qualifiers ++ [name])

/-- An expression. -/
inductive Expr where
  | int (value : Int64) (span : Span)
  | bool (value : Bool) (span : Span)
  | str (value : String) (span : Span)
  /-- `()`. -/
  | unit (span : Span)
  /-- A reference with optional type arguments, `target::<typeArgs>`. -/
  | ref (target : Reference) (typeArgs : Option (List TypeExpr)) (span : Span)
  | unary (op : UnaryOp) (operand : Expr) (span : Span)
  | binary (op : BinaryOp) (lhs rhs : Expr) (span : Span)
  /-- `callee(args)`. -/
  | call (callee : Expr) (args : List Expr) (span : Span)
  /-- `base[index]`. -/
  | index (base index : Expr) (span : Span)
  | tuple (items : List Expr) (span : Span)
  | array (items : List Expr) (span : Span)

namespace Expr

/-- Where the expression stands. -/
def span : Expr → Span
  | int _ s => s
  | bool _ s => s
  | str _ s => s
  | unit s => s
  | ref _ _ s => s
  | unary _ _ s => s
  | binary _ _ _ s => s
  | call _ _ s => s
  | index _ _ s => s
  | tuple _ s => s
  | array _ s => s

mutual

/-- Compares two expressions node by node, spans included. -/
def same : Expr → Expr → Bool
  | int v s, int v' s' => v == v' && s == s'
  | bool v s, bool v' s' => v == v' && s == s'
  | str v s, str v' s' => v == v' && s == s'
  | unit s, unit s' => s == s'
  | ref r a s, ref r' a' s' => r == r' && a == a' && s == s'
  | unary o e s, unary o' e' s' => o == o' && same e e' && s == s'
  | binary o l r s, binary o' l' r' s' => o == o' && same l l' && same r r' && s == s'
  | call f as s, call f' as' s' => same f f' && sameList as as' && s == s'
  | index b i s, index b' i' s' => same b b' && same i i' && s == s'
  | tuple is s, tuple is' s' => sameList is is' && s == s'
  | array is s, array is' s' => sameList is is' && s == s'
  | _, _ => false

/-- Compares two lists of expressions. -/
def sameList : List Expr → List Expr → Bool
  | [], [] => true
  | e :: es, e' :: es' => same e e' && sameList es es'
  | _, _ => false

end

mutual

/-- The comparison of expressions accepts an expression and itself. -/
theorem same_refl : ∀ e : Expr, same e e = true
  | int _ _ | bool _ _ | str _ _ | unit _ | ref _ _ _ => by simp [same]
  | unary _ e _ => by simp [same, same_refl e]
  | binary _ l r _ => by simp [same, same_refl l, same_refl r]
  | call f as _ => by simp [same, same_refl f, sameList_refl as]
  | index b i _ => by simp [same, same_refl b, same_refl i]
  | tuple is _ => by simp [same, sameList_refl is]
  | array is _ => by simp [same, sameList_refl is]

/-- Every list of expressions is the same as itself. -/
theorem sameList_refl : ∀ es : List Expr, sameList es es = true
  | [] => rfl
  | e :: es => by simp [sameList, same_refl e, sameList_refl es]

end

mutual

/-- Expressions that compare as the same are equal. -/
theorem eq_of_same : ∀ {e e' : Expr}, same e e' = true → e = e'
  | int _ _, int _ _, h | bool _ _, bool _ _, h | str _ _, str _ _, h | unit _, unit _, h
  | ref _ _ _, ref _ _ _, h => by simp_all [same]
  | unary _ e _, unary _ e' _, h => by
      simp only [same, Bool.and_eq_true, beq_iff_eq] at h
      rw [h.1.1, eq_of_same h.1.2, h.2]
  | binary _ l r _, binary _ l' r' _, h => by
      simp only [same, Bool.and_eq_true, beq_iff_eq] at h
      rw [h.1.1.1, eq_of_same h.1.1.2, eq_of_same h.1.2, h.2]
  | call f as _, call f' as' _, h => by
      simp only [same, Bool.and_eq_true, beq_iff_eq] at h
      rw [eq_of_same h.1.1, eq_of_sameList h.1.2, h.2]
  | index b i _, index b' i' _, h => by
      simp only [same, Bool.and_eq_true, beq_iff_eq] at h
      rw [eq_of_same h.1.1, eq_of_same h.1.2, h.2]
  | tuple is _, tuple is' _, h => by
      simp only [same, Bool.and_eq_true, beq_iff_eq] at h
      rw [eq_of_sameList h.1, h.2]
  | array is _, array is' _, h => by
      simp only [same, Bool.and_eq_true, beq_iff_eq] at h
      rw [eq_of_sameList h.1, h.2]

/-- Lists of expressions that compare as the same are equal. -/
theorem eq_of_sameList : ∀ {es es' : List Expr}, sameList es es' = true → es = es'
  | [], [], _ => rfl
  | e :: es, e' :: es', h => by
      simp only [sameList, Bool.and_eq_true] at h
      rw [eq_of_same h.1, eq_of_sameList h.2]

end

/-- Comparing node by node decides equality. -/
theorem same_iff {e e' : Expr} : same e e' = true ↔ e = e' :=
  ⟨eq_of_same, fun h => h ▸ same_refl e⟩

end Expr

/-- Expressions are compared by structure. -/
instance : DecidableEq Expr := fun _ _ => decidable_of_iff _ Expr.same_iff

end Freshen
