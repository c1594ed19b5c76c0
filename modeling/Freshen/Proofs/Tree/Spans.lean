import Mathlib
import Freshen.Token
import Freshen.Tree.Program

/-!
# Trees under a change of spans

- `mapSpans` of each kind of tree: the tree with every span changed by a function.
- `withoutSpans`: the tree with every span nowhere.  Two trees are equal up to spans if they are
  equal without spans.

**Key results.** `TypeExpr.span_mapSpans`, `Expr.span_mapSpans`, `Block.span_mapSpans`: the changed tree
stands at the changed place; `mapSpansList_eq_map`: lists are changed item by item.
-/

namespace Freshen

variable (f : Span → Span)

/-- The token at a changed place. -/
def Token.mapSpan (t : Token) : Token := { t with span := f t.span }

/-! ### Types and binding sites -/

namespace TypeExpr

mutual

/-- The annotation with its spans changed. -/
def mapSpans (f : Span → Span) : TypeExpr → TypeExpr
  | named n args s => named n (mapSpansList f args) (f s)
  | tuple items s => tuple (mapSpansList f items) (f s)
  | array elem s => array (mapSpans f elem) (f s)

/-- Several annotations with their spans changed. -/
def mapSpansList (f : Span → Span) : List TypeExpr → List TypeExpr
  | [] => []
  | t :: ts => mapSpans f t :: mapSpansList f ts

end

/-- The annotation without its spans. -/
abbrev withoutSpans : TypeExpr → TypeExpr := mapSpans fun _ => .nowhere

/-- Types in a list are changed one by one. -/
theorem mapSpansList_eq_map (ts : List TypeExpr) : mapSpansList f ts = ts.map (mapSpans f) := by
  induction ts with
  | nil => rfl
  | cons t ts ih => simp [mapSpansList, ih]

/-- The span of a changed type is its span, changed. -/
theorem span_mapSpans (t : TypeExpr) : (t.mapSpans f).span = f t.span := by
  cases t <;> rfl

end TypeExpr

/-- The binding site with its spans changed. -/
def Binder.mapSpans (b : Binder) : Binder :=
  { b with type := b.type.map (TypeExpr.mapSpans f), span := f b.span }

namespace Pattern

mutual

/-- The pattern with its spans changed. -/
def mapSpans (f : Span → Span) : Pattern → Pattern
  | binder b => binder (b.mapSpans f)
  | tuple items s => tuple (mapSpansList f items) (f s)
  | discard s => discard (f s)
  | invalid s => invalid (f s)

/-- Several patterns with their spans changed. -/
def mapSpansList (f : Span → Span) : List Pattern → List Pattern
  | [] => []
  | p :: ps => mapSpans f p :: mapSpansList f ps

end

/-- The pattern without its spans. -/
abbrev withoutSpans : Pattern → Pattern := mapSpans fun _ => .nowhere

/-- Patterns in a list are changed one by one. -/
theorem mapSpansList_eq_map (ps : List Pattern) : mapSpansList f ps = ps.map (mapSpans f) := by
  induction ps with
  | nil => rfl
  | cons p ps ih => simp [mapSpansList, ih]

end Pattern

namespace Params

mutual

/-- Parameters with their spans changed. -/
def mapSpans (f : Span → Span) : Params → Params
  | binder b => binder (b.mapSpans f)
  | tuple items s => tuple (mapSpansList f items) (f s)
  | unnamed s => unnamed (f s)

/-- Several parameters with their spans changed. -/
def mapSpansList (f : Span → Span) : List Params → List Params
  | [] => []
  | p :: ps => mapSpans f p :: mapSpansList f ps

end

/-- Parameters without their spans. -/
abbrev withoutSpans : Params → Params := mapSpans fun _ => .nowhere

/-- Parameters in a list are changed one by one. -/
theorem mapSpansList_eq_map (ps : List Params) : mapSpansList f ps = ps.map (mapSpans f) := by
  induction ps with
  | nil => rfl
  | cons p ps ih => simp [mapSpansList, ih]

end Params

/-! ### Expressions and statements -/

namespace Expr

mutual

/-- The expression with its spans changed. -/
def mapSpans (f : Span → Span) : Expr → Expr
  | int v s => int v (f s)
  | bool v s => bool v (f s)
  | str v s => str v (f s)
  | unit s => unit (f s)
  | ref target args s => ref target (args.map (TypeExpr.mapSpansList f)) (f s)
  | unary op e s => unary op (mapSpans f e) (f s)
  | binary op l r s => binary op (mapSpans f l) (mapSpans f r) (f s)
  | call callee args s => call (mapSpans f callee) (mapSpansList f args) (f s)
  | index b i s => index (mapSpans f b) (mapSpans f i) (f s)
  | tuple items s => tuple (mapSpansList f items) (f s)
  | array items s => array (mapSpansList f items) (f s)

/-- Several expressions with their spans changed. -/
def mapSpansList (f : Span → Span) : List Expr → List Expr
  | [] => []
  | e :: es => mapSpans f e :: mapSpansList f es

end

/-- The expression without its spans. -/
abbrev withoutSpans : Expr → Expr := mapSpans fun _ => .nowhere

/-- Expressions in a list are changed one by one. -/
theorem mapSpansList_eq_map (es : List Expr) : mapSpansList f es = es.map (mapSpans f) := by
  induction es with
  | nil => rfl
  | cons e es ih => simp [mapSpansList, ih]

/-- The span of a changed expression is its span, changed. -/
theorem span_mapSpans (e : Expr) : (e.mapSpans f).span = f e.span := by
  cases e <;> rfl

end Expr

mutual

/-- The statement with its spans changed. -/
def Stmt.mapSpans (f : Span → Span) : Stmt → Stmt
  | .bind p mutable e s => .bind (p.mapSpans f) mutable (e.mapSpans f) (f s)
  | .assign t v s => .assign (t.mapSpans f) (v.mapSpans f) (f s)
  | .eval v s => .eval (v.mapSpans f) (f s)
  | .ret v s => .ret (v.map (Expr.mapSpans f)) (f s)
  | .choose bs b s => .choose (Branch.mapSpansList f bs) (Block.mapSpansOption f b) (f s)
  | .loopWhile c b s => .loopWhile (c.mapSpans f) (Block.mapSpans f b) (f s)
  | .loopFor p e b s => .loopFor (p.mapSpans f) (e.mapSpans f) (Block.mapSpans f b) (f s)
  | .loopUntil b c x s =>
      .loopUntil (Block.mapSpans f b) (c.mapSpans f) (Block.mapSpansOption f x) (f s)
  | .block b s => .block (Block.mapSpans f b) (f s)
termination_by structural t => t

/-- The block with its spans changed. -/
def Block.mapSpans (f : Span → Span) : Block → Block
  | ⟨stmts, s⟩ => ⟨Stmt.mapSpansList f stmts, f s⟩
termination_by structural b => b

/-- An optional block with its spans changed. -/
def Block.mapSpansOption (f : Span → Span) : Option Block → Option Block
  | none => none
  | some b => some (Block.mapSpans f b)
termination_by structural b => b

/-- Several statements with their spans changed. -/
def Stmt.mapSpansList (f : Span → Span) : List Stmt → List Stmt
  | [] => []
  | t :: ts => Stmt.mapSpans f t :: Stmt.mapSpansList f ts
termination_by structural ts => ts

/-- Several branches with their spans changed. -/
def Branch.mapSpansList (f : Span → Span) : List Branch → List Branch
  | [] => []
  | ⟨c, b⟩ :: bs => ⟨c.mapSpans f, Block.mapSpans f b⟩ :: Branch.mapSpansList f bs
termination_by structural bs => bs

end

/-- The statement without its spans. -/
abbrev Stmt.withoutSpans : Stmt → Stmt := Stmt.mapSpans fun _ => .nowhere

/-- The block without its spans. -/
abbrev Block.withoutSpans : Block → Block := Block.mapSpans fun _ => .nowhere

/-- A block that may be missing is changed where there is one. -/
theorem Block.mapSpansOption_eq_map (b : Option Block) :
    mapSpansOption f b = b.map (mapSpans f) := by
  cases b <;> rfl

/-- The span of a changed block is its span, changed. -/
theorem Block.span_mapSpans (b : Block) : (b.mapSpans f).span = f b.span := by
  cases b
  rfl

/-! ### Callables and programs -/

/-- The callable with its spans changed. -/
def Callable.mapSpans (c : Callable) : Callable :=
  ⟨c.name, c.params.mapSpans f, c.body.mapSpans f, f c.span⟩

/-- The callable without its spans. -/
abbrev Callable.withoutSpans : Callable → Callable := Callable.mapSpans fun _ => .nowhere

/-- The program with its spans changed. -/
def Program.mapSpans (p : Program) : Program := ⟨p.callables.map (Callable.mapSpans f)⟩

/-- The program without its spans. -/
abbrev Program.withoutSpans : Program → Program := Program.mapSpans fun _ => .nowhere

end Freshen
