import Freshen.Tree.Program

/-!
# Reading walks

An `Observer` says what a walk does at each kind of node.  Each of its fields is given the node and
the walk of what is inside it, which it may run, run between other things, or leave out.  A field
that is not set runs the walk.

The order of a walk is the order in which a program is evaluated: a `let` reads its initializer
before its pattern, a `for` its source before its pattern and its body, a `repeat` its body before
its condition and its fixup.
-/

namespace Freshen

/-- What a reading walk does at each kind of node. -/
structure Observer (m : Type → Type) [Monad m] where
  program : Program → m Unit → m Unit := fun _ walk => walk
  callable : Callable → m Unit → m Unit := fun _ walk => walk
  params : Params → m Unit → m Unit := fun _ walk => walk
  block : Block → m Unit → m Unit := fun _ walk => walk
  stmt : Stmt → m Unit → m Unit := fun _ walk => walk
  /-- The inside of a `for`: the walks of its source, its pattern and its body. -/
  loopFor : (source pattern body : m Unit) → m Unit :=
    fun source pattern body => do source; pattern; body
  pattern : Pattern → m Unit → m Unit := fun _ walk => walk
  expr : Expr → m Unit → m Unit := fun _ walk => walk

namespace Observer

variable {m : Type → Type} [Monad m]

mutual

/-- Walks parameters. -/
def visitParams (o : Observer m) : Params → m Unit
  | .binder b => o.params (.binder b) (pure ())
  | .tuple items s => o.params (.tuple items s) (visitParamsList o items)
  | .unnamed s => o.params (.unnamed s) (pure ())
termination_by structural p => p

/-- Walks several parameters. -/
def visitParamsList (o : Observer m) : List Params → m Unit
  | [] => pure ()
  | p :: ps => do visitParams o p; visitParamsList o ps
termination_by structural ps => ps

end

mutual

/-- Walks a pattern. -/
def visitPattern (o : Observer m) : Pattern → m Unit
  | .binder b => o.pattern (.binder b) (pure ())
  | .tuple items s => o.pattern (.tuple items s) (visitPatterns o items)
  | .discard s => o.pattern (.discard s) (pure ())
  | .invalid s => o.pattern (.invalid s) (pure ())
termination_by structural p => p

/-- Walks several patterns. -/
def visitPatterns (o : Observer m) : List Pattern → m Unit
  | [] => pure ()
  | p :: ps => do visitPattern o p; visitPatterns o ps
termination_by structural ps => ps

end

mutual

/-- Walks an expression. -/
def visitExpr (o : Observer m) : Expr → m Unit
  | .int v s => o.expr (.int v s) (pure ())
  | .bool v s => o.expr (.bool v s) (pure ())
  | .str v s => o.expr (.str v s) (pure ())
  | .unit s => o.expr (.unit s) (pure ())
  | .ref t as s => o.expr (.ref t as s) (pure ())
  | .unary op e s => o.expr (.unary op e s) (visitExpr o e)
  | .binary op l r s => o.expr (.binary op l r s) (do visitExpr o l; visitExpr o r)
  | .call f as s => o.expr (.call f as s) (do visitExpr o f; visitExprs o as)
  | .index b i s => o.expr (.index b i s) (do visitExpr o b; visitExpr o i)
  | .tuple is s => o.expr (.tuple is s) (visitExprs o is)
  | .array is s => o.expr (.array is s) (visitExprs o is)
termination_by structural e => e

/-- Walks several expressions. -/
def visitExprs (o : Observer m) : List Expr → m Unit
  | [] => pure ()
  | e :: es => do visitExpr o e; visitExprs o es
termination_by structural es => es

end

/-- Walks an optional expression. -/
def visitExprOption (o : Observer m) : Option Expr → m Unit
  | none => pure ()
  | some e => visitExpr o e

mutual

/-- Walks a statement. -/
def visitStmt (o : Observer m) : Stmt → m Unit
  | .bind p mutable e s => o.stmt (.bind p mutable e s) (do visitExpr o e; visitPattern o p)
  | .assign t v s => o.stmt (.assign t v s) (do visitExpr o t; visitExpr o v)
  | .eval v s => o.stmt (.eval v s) (visitExpr o v)
  | .ret v s => o.stmt (.ret v s) (visitExprOption o v)
  | .choose bs b s => o.stmt (.choose bs b s) (do visitBranches o bs; visitBlockOption o b)
  | .loopWhile c b s => o.stmt (.loopWhile c b s) (do visitExpr o c; visitBlock o b)
  | .loopFor p e b s =>
      o.stmt (.loopFor p e b s) (o.loopFor (visitExpr o e) (visitPattern o p) (visitBlock o b))
  | .loopUntil b c f s =>
      o.stmt (.loopUntil b c f s) (do visitBlock o b; visitExpr o c; visitBlockOption o f)
  | .block b s => o.stmt (.block b s) (visitBlock o b)
termination_by structural t => t

/-- Walks a block. -/
def visitBlock (o : Observer m) : Block → m Unit
  | ⟨stmts, s⟩ => o.block ⟨stmts, s⟩ (visitStmts o stmts)
termination_by structural b => b

/-- Walks an optional block. -/
def visitBlockOption (o : Observer m) : Option Block → m Unit
  | none => pure ()
  | some b => visitBlock o b
termination_by structural b => b

/-- Walks several statements. -/
def visitStmts (o : Observer m) : List Stmt → m Unit
  | [] => pure ()
  | t :: ts => do visitStmt o t; visitStmts o ts
termination_by structural ts => ts

/-- Walks the branches of a choice. -/
def visitBranches (o : Observer m) : List Branch → m Unit
  | [] => pure ()
  | ⟨c, b⟩ :: bs => do visitExpr o c; visitBlock o b; visitBranches o bs
termination_by structural bs => bs

end

/-- Walks a callable. -/
def visitCallable (o : Observer m) (c : Callable) : m Unit :=
  o.callable c (do visitParams o c.params; visitBlock o c.body)

/-- Walks several callables. -/
def visitCallables (o : Observer m) : List Callable → m Unit
  | [] => pure ()
  | c :: cs => do visitCallable o c; visitCallables o cs

/-- Walks a program. -/
def visitProgram (o : Observer m) (p : Program) : m Unit :=
  o.program p (visitCallables o p.callables)

end Observer

end Freshen
