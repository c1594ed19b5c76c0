import Mathlib
import Freshen.Token
import Freshen.Tree.Program

/-!
# Outlines of trees

The places of the nodes of a tree, nested in each other as the nodes are.

- `Outline`: the place of a node and the outlines of the nodes below it.
- `TypeExpr.outline`, `Pattern.outline`, `Params.outline`, `Expr.outline`, `Stmt.outline`, `Block.outline`,
  `Callable.outline`, `Program.outlines`: the outlines of trees.
- `Outline.WellNested`: each node covers tokens, and the nodes below it stand in it one after the other.
-/

namespace Freshen

/-- The one place is a part of the other one. -/
def Span.Within (s outer : Span) : Prop := outer.start ≤ s.start ∧ s.stop ≤ outer.stop

/-- The one place ends before the other one starts. -/
def Span.Before (s later : Span) : Prop := s.stop ≤ later.start

/-- The place of a node, and the outlines of the nodes right below it from left to right. -/
inductive Outline where
  | node (span : Span) (parts : List Outline)

/-- The place of the node. -/
def Outline.span : Outline → Span
  | node s _ => s

/-- Each node covers some of the tokens, from the start of one to the end of one, and the nodes right below
it stand in it one after the other. -/
inductive Outline.WellNested (tokens : List Token) : Outline → Prop where
  | node {s : Span} {parts : List Outline} (hsize : s.start < s.stop)
      (hstart : ∃ t ∈ tokens, t.span.start = s.start) (hstop : ∃ t ∈ tokens, t.span.stop = s.stop)
      (hwithin : ∀ o ∈ parts, o.span.Within s)
      (hordered : parts.Pairwise fun o later => o.span.Before later.span)
      (hparts : ∀ o ∈ parts, WellNested tokens o) : WellNested tokens (.node s parts)

/-! ### Types and binding sites -/

namespace TypeExpr

mutual

/-- The outline of a type. -/
def outline : TypeExpr → Outline
  | named _ args s => .node s (outlineList args)
  | tuple items s => .node s (outlineList items)
  | array elem s => .node s [outline elem]

/-- The outlines of a list of types. -/
def outlineList : List TypeExpr → List Outline
  | [] => []
  | t :: ts => outline t :: outlineList ts

end

/-- The outlines of types in a list are those of the types. -/
@[simp] theorem outlineList_eq_map (ts : List TypeExpr) : outlineList ts = ts.map outline := by
  induction ts with
  | nil => rfl
  | cons t ts ih => rw [outlineList, ih, List.map_cons]

/-- The outline of a type has the span of the type. -/
@[simp] theorem span_outline (t : TypeExpr) : t.outline.span = t.span := by
  cases t <;> rfl

end TypeExpr

/-- The outline of a declaration: its type is below it. -/
def Binder.outline (b : Binder) : Outline := .node b.span (b.type.map TypeExpr.outline).toList

namespace Pattern

mutual

/-- The outline of a pattern. -/
def outline : Pattern → Outline
  | binder b => .node b.span [b.outline]
  | tuple items s => .node s (outlineList items)
  | discard s => .node s []
  | invalid s => .node s []

/-- The outlines of a list of patterns. -/
def outlineList : List Pattern → List Outline
  | [] => []
  | p :: ps => outline p :: outlineList ps

end

/-- The outlines of patterns in a list are those of the patterns. -/
@[simp] theorem outlineList_eq_map (ps : List Pattern) : outlineList ps = ps.map outline := by
  induction ps with
  | nil => rfl
  | cons p ps ih => rw [outlineList, ih, List.map_cons]

end Pattern

namespace Params

mutual

/-- The outline of parameters. -/
def outline : Params → Outline
  | binder b => .node b.span [b.outline]
  | tuple items s => .node s (outlineList items)
  | unnamed s => .node s []

/-- The outlines of a list of parameters. -/
def outlineList : List Params → List Outline
  | [] => []
  | p :: ps => outline p :: outlineList ps

end

/-- The outlines of parameters in a list are those of the parameters. -/
@[simp] theorem outlineList_eq_map (ps : List Params) : outlineList ps = ps.map outline := by
  induction ps with
  | nil => rfl
  | cons p ps ih => rw [outlineList, ih, List.map_cons]

end Params

/-! ### Expressions -/

namespace Expr

mutual

/-- The outline of an expression. -/
def outline : Expr → Outline
  | int _ s => .node s []
  | bool _ s => .node s []
  | str _ s => .node s []
  | unit s => .node s []
  | ref _ typeArgs s => .node s ((typeArgs.getD []).map TypeExpr.outline)
  | unary _ operand s => .node s [outline operand]
  | binary _ lhs rhs s => .node s [outline lhs, outline rhs]
  | call callee args s => .node s (outline callee :: outlineList args)
  | index base i s => .node s [outline base, outline i]
  | tuple items s => .node s (outlineList items)
  | array items s => .node s (outlineList items)

/-- The outlines of a list of expressions. -/
def outlineList : List Expr → List Outline
  | [] => []
  | e :: es => outline e :: outlineList es

end

/-- The outlines of expressions in a list are those of the expressions. -/
@[simp] theorem outlineList_eq_map (es : List Expr) : outlineList es = es.map outline := by
  induction es with
  | nil => rfl
  | cons e es ih => rw [outlineList, ih, List.map_cons]

/-- The outline of an expression has the span of the expression. -/
@[simp] theorem span_outline (e : Expr) : e.outline.span = e.span := by
  cases e <;> rfl

end Expr

/-! ### Statements, blocks and callables -/

mutual

/-- The outline of a statement. -/
def Stmt.outline : Stmt → Outline
  | .bind p _ e s => .node s [p.outline, e.outline]
  | .assign t v s => .node s [t.outline, v.outline]
  | .eval v s => .node s [v.outline]
  | .ret v s => .node s (v.map Expr.outline).toList
  | .choose bs b s => .node s (Branch.outlineList bs ++ Block.outlineOption b)
  | .loopWhile c b s => .node s [c.outline, Block.outline b]
  | .loopFor p e b s => .node s [p.outline, e.outline, Block.outline b]
  | .loopUntil b c f s => .node s (Block.outline b :: c.outline :: Block.outlineOption f)
  | .block b s => .node s [Block.outline b]

/-- The outline of a block. -/
def Block.outline : Block → Outline
  | ⟨ts, s⟩ => .node s (Stmt.outlineList ts)

/-- The outlines of an optional block. -/
def Block.outlineOption : Option Block → List Outline
  | none => []
  | some b => [Block.outline b]

/-- The outlines of a list of statements. -/
def Stmt.outlineList : List Stmt → List Outline
  | [] => []
  | t :: ts => Stmt.outline t :: Stmt.outlineList ts

/-- The outlines of the conditions and the blocks of branches, which have no places of their own. -/
def Branch.outlineList : List Branch → List Outline
  | [] => []
  | ⟨c, b⟩ :: bs => c.outline :: Block.outline b :: Branch.outlineList bs

end

/-- The outline of a block has the span of the block. -/
@[simp] theorem Block.span_outline (b : Block) : b.outline.span = b.span := by
  cases b
  rfl

/-- The outline of a callable. -/
def Callable.outline (c : Callable) : Outline := .node c.span [c.params.outline, c.body.outline]

/-- The outlines of the callables of a program, which has no place of its own. -/
def Program.outlines (p : Program) : List Outline := p.callables.map Callable.outline

end Freshen
