import Freshen.Tree.Program

/-!
# Rebuilding walks

A `Rebuilder` says what a walk that rebuilds a tree does at each kind of node.  Each of its fields
is given the node and the walk that rebuilds it from what is inside it.  A field that is not set
runs the walk, so the rebuilder with no field set rebuilds the tree that it is given.

The order of a walk is that of reading walks: a `let` rebuilds its initializer before its pattern, a
`for` its source before its pattern and its body, a `repeat` its body before its condition and its
fixup.  If the monad has failures, the walk ends with the first.
-/

namespace Freshen

/-- What a rebuilding walk does at each kind of node. -/
structure Rebuilder (m : Type → Type) [Monad m] where
  program : Program → m Program → m Program := fun _ walk => walk
  callable : Callable → m Callable → m Callable := fun _ walk => walk
  params : Params → m Params → m Params := fun _ walk => walk
  block : Block → m Block → m Block := fun _ walk => walk
  stmt : Stmt → m Stmt → m Stmt := fun _ walk => walk
  /-- The inside of a `for`: its pattern, its source and its body, and the walks of its source, its
  pattern and its body. -/
  loopFor : Pattern → Expr → Block → m Expr → m Pattern → m Block → m (Expr × Pattern × Block) :=
    fun _ _ _ source pattern body => do
      let e ← source
      let p ← pattern
      let b ← body
      return (e, p, b)
  /-- The inside of a `repeat`: its body, its condition and its fixup, and the walk of them. -/
  loopUntil : Block → Expr → Option Block → m (Block × Expr × Option Block) →
      m (Block × Expr × Option Block) :=
    fun _ _ _ walk => walk
  pattern : Pattern → m Pattern → m Pattern := fun _ walk => walk
  expr : Expr → m Expr → m Expr := fun _ walk => walk
  /-- An identifier in an expression, which has nothing inside. -/
  reference : Reference → Option (List TypeExpr) → Span → m Expr :=
    fun target args s => return .ref target args s

namespace Rebuilder

variable {m : Type → Type} [Monad m]

mutual

/-- Rebuilds parameters. -/
def rebuildParams (r : Rebuilder m) : Params → m Params
  | .binder b => r.params (.binder b) (pure (.binder b))
  | .tuple items s => r.params (.tuple items s) (return .tuple (← rebuildParamsList r items) s)
  | .unnamed s => r.params (.unnamed s) (pure (.unnamed s))
termination_by structural p => p

/-- Rebuilds several parameters. -/
def rebuildParamsList (r : Rebuilder m) : List Params → m (List Params)
  | [] => pure []
  | p :: ps => do
      let p' ← rebuildParams r p
      let ps' ← rebuildParamsList r ps
      return p' :: ps'
termination_by structural ps => ps

end

mutual

/-- Rebuilds a pattern. -/
def rebuildPattern (r : Rebuilder m) : Pattern → m Pattern
  | .binder b => r.pattern (.binder b) (pure (.binder b))
  | .tuple items s => r.pattern (.tuple items s) (return .tuple (← rebuildPatterns r items) s)
  | .discard s => r.pattern (.discard s) (pure (.discard s))
  | .invalid s => r.pattern (.invalid s) (pure (.invalid s))
termination_by structural p => p

/-- Rebuilds several patterns. -/
def rebuildPatterns (r : Rebuilder m) : List Pattern → m (List Pattern)
  | [] => pure []
  | p :: ps => do
      let p' ← rebuildPattern r p
      let ps' ← rebuildPatterns r ps
      return p' :: ps'
termination_by structural ps => ps

end

mutual

/-- Rebuilds an expression. -/
def rebuildExpr (r : Rebuilder m) : Expr → m Expr
  | .int v s => r.expr (.int v s) (pure (.int v s))
  | .bool v s => r.expr (.bool v s) (pure (.bool v s))
  | .str v s => r.expr (.str v s) (pure (.str v s))
  | .unit s => r.expr (.unit s) (pure (.unit s))
  | .ref t as s => r.expr (.ref t as s) (r.reference t as s)
  | .unary op e s => r.expr (.unary op e s) (return .unary op (← rebuildExpr r e) s)
  | .binary op lhs rhs s =>
      r.expr (.binary op lhs rhs s) do
        let lhs' ← rebuildExpr r lhs
        let rhs' ← rebuildExpr r rhs
        return .binary op lhs' rhs' s
  | .call f as s =>
      r.expr (.call f as s) do
        let f' ← rebuildExpr r f
        let as' ← rebuildExprs r as
        return .call f' as' s
  | .index b i s =>
      r.expr (.index b i s) do
        let b' ← rebuildExpr r b
        let i' ← rebuildExpr r i
        return .index b' i' s
  | .tuple is s => r.expr (.tuple is s) (return .tuple (← rebuildExprs r is) s)
  | .array is s => r.expr (.array is s) (return .array (← rebuildExprs r is) s)
termination_by structural e => e

/-- Rebuilds several expressions. -/
def rebuildExprs (r : Rebuilder m) : List Expr → m (List Expr)
  | [] => pure []
  | e :: es => do
      let e' ← rebuildExpr r e
      let es' ← rebuildExprs r es
      return e' :: es'
termination_by structural es => es

end

/-- Rebuilds an optional expression. -/
def rebuildExprOption (r : Rebuilder m) : Option Expr → m (Option Expr)
  | none => pure none
  | some e => return some (← rebuildExpr r e)

mutual

/-- Rebuilds a statement. -/
def rebuildStmt (r : Rebuilder m) : Stmt → m Stmt
  | .bind p mutable e s =>
      r.stmt (.bind p mutable e s) do
        let e' ← rebuildExpr r e
        let p' ← rebuildPattern r p
        return .bind p' mutable e' s
  | .assign t v s =>
      r.stmt (.assign t v s) do
        let t' ← rebuildExpr r t
        let v' ← rebuildExpr r v
        return .assign t' v' s
  | .eval v s => r.stmt (.eval v s) (return .eval (← rebuildExpr r v) s)
  | .ret v s => r.stmt (.ret v s) (return .ret (← rebuildExprOption r v) s)
  | .choose bs b s =>
      r.stmt (.choose bs b s) do
        let bs' ← rebuildBranches r bs
        let b' ← rebuildBlockOption r b
        return .choose bs' b' s
  | .loopWhile c b s =>
      r.stmt (.loopWhile c b s) do
        let c' ← rebuildExpr r c
        let b' ← rebuildBlock r b
        return .loopWhile c' b' s
  | .loopFor p e b s =>
      r.stmt (.loopFor p e b s) do
        let (e', p', b') ←
          r.loopFor p e b (rebuildExpr r e) (rebuildPattern r p) (rebuildBlock r b)
        return .loopFor p' e' b' s
  | .loopUntil b c f s =>
      r.stmt (.loopUntil b c f s) do
        let (b', c', f') ← r.loopUntil b c f do
          let b' ← rebuildBlock r b
          let c' ← rebuildExpr r c
          let f' ← rebuildBlockOption r f
          return (b', c', f')
        return .loopUntil b' c' f' s
  | .block b s => r.stmt (.block b s) (return .block (← rebuildBlock r b) s)
termination_by structural t => t

/-- Rebuilds a block. -/
def rebuildBlock (r : Rebuilder m) : Block → m Block
  | ⟨stmts, s⟩ => r.block ⟨stmts, s⟩ (return ⟨← rebuildStmts r stmts, s⟩)
termination_by structural b => b

/-- Rebuilds an optional block. -/
def rebuildBlockOption (r : Rebuilder m) : Option Block → m (Option Block)
  | none => pure none
  | some b => return some (← rebuildBlock r b)
termination_by structural b => b

/-- Rebuilds several statements. -/
def rebuildStmts (r : Rebuilder m) : List Stmt → m (List Stmt)
  | [] => pure []
  | t :: ts => do
      let t' ← rebuildStmt r t
      let ts' ← rebuildStmts r ts
      return t' :: ts'
termination_by structural ts => ts

/-- Rebuilds the branches of a choice. -/
def rebuildBranches (r : Rebuilder m) : List Branch → m (List Branch)
  | [] => pure []
  | ⟨c, b⟩ :: bs => do
      let c' ← rebuildExpr r c
      let b' ← rebuildBlock r b
      let bs' ← rebuildBranches r bs
      return ⟨c', b'⟩ :: bs'
termination_by structural bs => bs

end

/-- Rebuilds a callable; its name stays. -/
def rebuildCallable (r : Rebuilder m) (c : Callable) : m Callable :=
  r.callable c do
    let params ← rebuildParams r c.params
    let body ← rebuildBlock r c.body
    return { c with params := params, body := body }

/-- Rebuilds several callables. -/
def rebuildCallables (r : Rebuilder m) : List Callable → m (List Callable)
  | [] => pure []
  | c :: cs => do
      let c' ← rebuildCallable r c
      let cs' ← rebuildCallables r cs
      return c' :: cs'

/-- Rebuilds a program. -/
def rebuildProgram (r : Rebuilder m) (p : Program) : m Program :=
  r.program p (return ⟨← rebuildCallables r p.callables⟩)

end Rebuilder

end Freshen
