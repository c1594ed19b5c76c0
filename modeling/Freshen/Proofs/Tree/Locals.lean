import Freshen.Tree.Program

/-!
# Trees without their local names

Two trees that differ only in how they name their locals are the same tree once those names are
blotted out.

- `Callable.withoutLocals`: the callable with an empty name at every binding site and at every local
  reference.  Spans, annotations, type arguments, global names, literals, operators and the shape
  stay.
-/

namespace Freshen

/-- The binding site without its name. -/
def Binder.withoutLocals (b : Binder) : Binder := { b with name := "" }

namespace Pattern

mutual

/-- The pattern without the names that it binds. -/
def withoutLocals : Pattern → Pattern
  | binder b => binder b.withoutLocals
  | tuple items s => tuple (withoutLocalsList items) s
  | discard s => discard s
  | invalid s => invalid s

/-- Several patterns without the names that they bind. -/
def withoutLocalsList : List Pattern → List Pattern
  | [] => []
  | p :: ps => withoutLocals p :: withoutLocalsList ps

end

end Pattern

namespace Params

mutual

/-- Parameters without their names. -/
def withoutLocals : Params → Params
  | binder b => binder b.withoutLocals
  | tuple items s => tuple (withoutLocalsList items) s
  | unnamed s => unnamed s

/-- Several parameters without their names. -/
def withoutLocalsList : List Params → List Params
  | [] => []
  | p :: ps => withoutLocals p :: withoutLocalsList ps

end

end Params

/-- The reference without its name, if it is local. -/
def Reference.withoutLocals : Reference → Reference
  | unqualified _ => unqualified ""
  | qualified qualifiers name => qualified qualifiers name

namespace Expr

mutual

/-- The expression without the names of its local references. -/
def withoutLocals : Expr → Expr
  | int v s => int v s
  | bool v s => bool v s
  | str v s => str v s
  | unit s => unit s
  | ref target args s => ref target.withoutLocals args s
  | unary op e s => unary op (withoutLocals e) s
  | binary op l r s => binary op (withoutLocals l) (withoutLocals r) s
  | call f as s => call (withoutLocals f) (withoutLocalsList as) s
  | index b i s => index (withoutLocals b) (withoutLocals i) s
  | tuple is s => tuple (withoutLocalsList is) s
  | array is s => array (withoutLocalsList is) s

/-- Several expressions without the names of their local references. -/
def withoutLocalsList : List Expr → List Expr
  | [] => []
  | e :: es => withoutLocals e :: withoutLocalsList es

end

end Expr

mutual

/-- The statement without its local names. -/
def Stmt.withoutLocals : Stmt → Stmt
  | .bind p mutable e s => .bind p.withoutLocals mutable e.withoutLocals s
  | .assign t v s => .assign t.withoutLocals v.withoutLocals s
  | .eval v s => .eval v.withoutLocals s
  | .ret v s => .ret (v.map Expr.withoutLocals) s
  | .choose bs b s => .choose (Branch.withoutLocalsList bs) (Block.withoutLocalsOption b) s
  | .loopWhile c b s => .loopWhile c.withoutLocals (Block.withoutLocals b) s
  | .loopFor p e b s => .loopFor p.withoutLocals e.withoutLocals (Block.withoutLocals b) s
  | .loopUntil b c f s =>
      .loopUntil (Block.withoutLocals b) c.withoutLocals (Block.withoutLocalsOption f) s
  | .block b s => .block (Block.withoutLocals b) s
termination_by structural t => t

/-- The block without its local names. -/
def Block.withoutLocals : Block → Block
  | ⟨stmts, s⟩ => ⟨Stmt.withoutLocalsList stmts, s⟩
termination_by structural b => b

/-- An optional block without its local names. -/
def Block.withoutLocalsOption : Option Block → Option Block
  | none => none
  | some b => some (Block.withoutLocals b)
termination_by structural b => b

/-- Several statements without their local names. -/
def Stmt.withoutLocalsList : List Stmt → List Stmt
  | [] => []
  | t :: ts => Stmt.withoutLocals t :: Stmt.withoutLocalsList ts
termination_by structural ts => ts

/-- Several branches without their local names. -/
def Branch.withoutLocalsList : List Branch → List Branch
  | [] => []
  | ⟨c, b⟩ :: bs => ⟨c.withoutLocals, Block.withoutLocals b⟩ :: Branch.withoutLocalsList bs
termination_by structural bs => bs

end

/-- The callable without its local names; its own name stays. -/
def Callable.withoutLocals (c : Callable) : Callable :=
  { c with params := c.params.withoutLocals, body := c.body.withoutLocals }

end Freshen
