import Mathlib
import Freshen.Grammar.Program
import Freshen.Proofs.Token.Reading
import Freshen.Proofs.Traversal.Follow
import Freshen.Traversal.Trace

/-!
# What walks log

Every walk over a tree meets its nodes in one order, which can be read off the tree. A reading walk logs the
nodes that it has a field for, and a rebuilding walk logs all of them, up to the first that it stops at.

- `Program.entries` and its companions: the nodes of a tree, and what is inside a `for`, a `repeat` or an
  identifier, in the order of a walk.
- `Trace.Logs`: what a reading walk writes down. `Trace.Builds`: the same of a rebuilding walk that may stop,
  and what it builds.

**Key results.** `Trace.read_eq_rebuild`: both walks log the nodes of the program, in the same order;
`Trace.rebuild_first_refused`: a rebuilding walk stops at the first entry that is refused, with the log up to
this entry, and otherwise gives back the tree.
-/

namespace Freshen

open Trace (Entry Log Stoppable)

/-! ### The nodes of a tree -/

mutual

/-- The nodes of parameters, in the order of a walk. -/
def Params.entries : Params → List Entry
  | .binder b => [.params (.binder b)]
  | .tuple items s => .params (.tuple items s) :: Params.entriesList items
  | .unnamed s => [.params (.unnamed s)]

/-- The nodes of several parameters. -/
def Params.entriesList : List Params → List Entry
  | [] => []
  | p :: ps => Params.entries p ++ Params.entriesList ps

end

mutual

/-- The nodes of a pattern. -/
def Pattern.entries : Pattern → List Entry
  | .binder b => [.pattern (.binder b)]
  | .tuple items s => .pattern (.tuple items s) :: Pattern.entriesList items
  | .discard s => [.pattern (.discard s)]
  | .invalid s => [.pattern (.invalid s)]

/-- The nodes of several patterns. -/
def Pattern.entriesList : List Pattern → List Entry
  | [] => []
  | p :: ps => Pattern.entries p ++ Pattern.entriesList ps

end

mutual

/-- The nodes of an expression. A reference is followed by its identifier. -/
def Expr.entries : Expr → List Entry
  | .int v s => [.expr (.int v s)]
  | .bool v s => [.expr (.bool v s)]
  | .str v s => [.expr (.str v s)]
  | .unit s => [.expr (.unit s)]
  | .ref t as s => [.expr (.ref t as s), .reference t as s]
  | .unary op e s => .expr (.unary op e s) :: Expr.entries e
  | .binary op l r s => .expr (.binary op l r s) :: (Expr.entries l ++ Expr.entries r)
  | .call f as s => .expr (.call f as s) :: (Expr.entries f ++ Expr.entriesList as)
  | .index b i s => .expr (.index b i s) :: (Expr.entries b ++ Expr.entries i)
  | .tuple is s => .expr (.tuple is s) :: Expr.entriesList is
  | .array is s => .expr (.array is s) :: Expr.entriesList is

/-- The nodes of several expressions. -/
def Expr.entriesList : List Expr → List Entry
  | [] => []
  | e :: es => Expr.entries e ++ Expr.entriesList es

end

/-- The nodes of an optional expression. -/
def Expr.entriesOption : Option Expr → List Entry
  | none => []
  | some e => e.entries

mutual

/-- The nodes of a statement. A `for` and a `repeat` are followed by what is inside them. -/
def Stmt.entries : Stmt → List Entry
  | .bind p mutable e s => .stmt (.bind p mutable e s) :: (e.entries ++ p.entries)
  | .assign t v s => .stmt (.assign t v s) :: (t.entries ++ v.entries)
  | .eval v s => .stmt (.eval v s) :: v.entries
  | .ret v s => .stmt (.ret v s) :: Expr.entriesOption v
  | .choose bs b s => .stmt (.choose bs b s) :: (Branch.entriesList bs ++ Block.entriesOption b)
  | .loopWhile c b s => .stmt (.loopWhile c b s) :: (c.entries ++ Block.entries b)
  | .loopFor p e b s =>
      .stmt (.loopFor p e b s) :: .loopFor p e b :: (e.entries ++ (p.entries ++ Block.entries b))
  | .loopUntil b c f s =>
      .stmt (.loopUntil b c f s) :: .loopUntil b c f ::
        (Block.entries b ++ (c.entries ++ Block.entriesOption f))
  | .block b s => .stmt (.block b s) :: Block.entries b
termination_by structural t => t

/-- The nodes of a block. -/
def Block.entries : Block → List Entry
  | ⟨stmts, s⟩ => .block ⟨stmts, s⟩ :: Stmt.entriesList stmts
termination_by structural b => b

/-- The nodes of an optional block. -/
def Block.entriesOption : Option Block → List Entry
  | none => []
  | some b => Block.entries b
termination_by structural b => b

/-- The nodes of several statements. -/
def Stmt.entriesList : List Stmt → List Entry
  | [] => []
  | t :: ts => Stmt.entries t ++ Stmt.entriesList ts
termination_by structural ts => ts

/-- The nodes of the branches of a choice. -/
def Branch.entriesList : List Branch → List Entry
  | [] => []
  | ⟨c, b⟩ :: bs => c.entries ++ (Block.entries b ++ Branch.entriesList bs)
termination_by structural bs => bs

end

/-- The nodes of a callable. -/
def Callable.entries (c : Callable) : List Entry := .callable c :: (c.params.entries ++ c.body.entries)

/-- The nodes of a program. -/
def Program.entries (p : Program) : List Entry := .program p :: p.callables.flatMap Callable.entries

namespace Trace

/-! ### Reading walks -/

/-- A reading walk has a field for entries of this kind. -/
def Entry.isRead : Entry → Bool
  | loopFor _ _ _ | loopUntil _ _ _ | reference _ _ _ => false
  | _ => true

/-- The log after a reading walk met the entries. -/
def noted (log : Log) (entries : List Entry) : Log :=
  entries.foldl (fun log e => if e.isRead then log.push e else log) log

/-- What a reading walk adds to a log are the entries that it has a field for. -/
theorem toList_noted (log : Log) (entries : List Entry) :
    (noted log entries).toList = log.toList ++ entries.filter Entry.isRead := by
  induction entries generalizing log with
  | nil => exact (List.append_nil _).symm
  | cons e es ih =>
      refine (ih _).trans ?_
      by_cases he : e.isRead
      · simp [he]
      · simp [he]

/-- Whatever was logged before, the walk meets the entries. -/
def Logs (walk : StateM Log Unit) (entries : List Entry) : Prop :=
  ∀ log, Reaches walk log (noted log entries)

namespace Logs

variable {walk next : StateM Log Unit} {es fs : List Entry} {e : Entry}

/-- A walk that does nothing meets no node. -/
theorem pure : Logs (Pure.pure ()) [] := fun log => Reaches.pure log

/-- Two walks one after the other meet the nodes of the first and then those of the second. -/
theorem seq (h : Logs walk es) (hnext : Logs next fs) : Logs (do walk; next) (es ++ fs) := by
  intro log
  rw [noted, List.foldl_append]
  exact (h log).seq (hnext _)

/-- A node is logged before what is inside it. -/
theorem node (he : e.isRead = true) (h : Logs walk es) : Logs (logged e walk) (e :: es) := by
  intro log
  rw [noted, List.foldl_cons, if_pos he]
  exact (reaches_modify _ log).seq (h _)

/-- What a reading walk has no field for is not logged. -/
theorem unread (he : e.isRead = false) (h : Logs walk es) : Logs walk (e :: es) := by
  intro log
  rw [noted, List.foldl_cons, if_neg (ne_true_of_eq_false he)]
  exact h log

end Logs

mutual

/-- A reading walk over parameters meets their nodes. -/
theorem logs_params : ∀ p : Params, Logs (observer.visitParams p) p.entries
  | .binder _ => .node rfl .pure
  | .tuple items _ => .node rfl (logs_paramsList items)
  | .unnamed _ => .node rfl .pure

/-- A reading walk over a list of parameters meets the nodes of its items. -/
theorem logs_paramsList : ∀ ps : List Params, Logs (observer.visitParamsList ps) (Params.entriesList ps)
  | [] => .pure
  | p :: ps => (logs_params p).seq (logs_paramsList ps)

end

mutual

/-- A reading walk over a pattern meets its nodes. -/
theorem logs_pattern : ∀ p : Pattern, Logs (observer.visitPattern p) p.entries
  | .binder _ => .node rfl .pure
  | .tuple items _ => .node rfl (logs_patterns items)
  | .discard _ => .node rfl .pure
  | .invalid _ => .node rfl .pure

/-- A reading walk over a list of patterns meets the nodes of its items. -/
theorem logs_patterns : ∀ ps : List Pattern, Logs (observer.visitPatterns ps) (Pattern.entriesList ps)
  | [] => .pure
  | p :: ps => (logs_pattern p).seq (logs_patterns ps)

end

mutual

/-- A reading walk over an expression meets its nodes. -/
theorem logs_expr : ∀ e : Expr, Logs (observer.visitExpr e) e.entries
  | .int _ _ | .bool _ _ | .str _ _ | .unit _ => .node rfl .pure
  | .ref _ _ _ => .node rfl (.unread rfl .pure)
  | .unary _ e _ => .node rfl (logs_expr e)
  | .binary _ l r _ => .node rfl ((logs_expr l).seq (logs_expr r))
  | .call f as _ => .node rfl ((logs_expr f).seq (logs_exprs as))
  | .index b i _ => .node rfl ((logs_expr b).seq (logs_expr i))
  | .tuple is _ => .node rfl (logs_exprs is)
  | .array is _ => .node rfl (logs_exprs is)

/-- A reading walk over a list of expressions meets the nodes of its items. -/
theorem logs_exprs : ∀ es : List Expr, Logs (observer.visitExprs es) (Expr.entriesList es)
  | [] => .pure
  | e :: es => (logs_expr e).seq (logs_exprs es)

end

/-- A reading walk over an expression that may be missing meets its nodes. -/
theorem logs_exprOption : ∀ e : Option Expr, Logs (observer.visitExprOption e) (Expr.entriesOption e)
  | none => .pure
  | some e => logs_expr e

mutual

/-- A reading walk over a statement meets its nodes. -/
theorem logs_stmt : ∀ t : Stmt, Logs (observer.visitStmt t) t.entries
  | .bind p _ e _ => .node rfl ((logs_expr e).seq (logs_pattern p))
  | .assign t v _ => .node rfl ((logs_expr t).seq (logs_expr v))
  | .eval v _ => .node rfl (logs_expr v)
  | .ret v _ => .node rfl (logs_exprOption v)
  | .choose bs b _ => .node rfl ((logs_branches bs).seq (logs_blockOption b))
  | .loopWhile c b _ => .node rfl ((logs_expr c).seq (logs_block b))
  | .loopFor p e b _ =>
      .node rfl (.unread rfl ((logs_expr e).seq ((logs_pattern p).seq (logs_block b))))
  | .loopUntil b c f _ =>
      .node rfl (.unread rfl ((logs_block b).seq ((logs_expr c).seq (logs_blockOption f))))
  | .block b _ => .node rfl (logs_block b)

/-- A reading walk over a block meets its nodes. -/
theorem logs_block : ∀ b : Block, Logs (observer.visitBlock b) b.entries
  | ⟨stmts, _⟩ => .node rfl (logs_stmts stmts)

/-- A reading walk over a block that may be missing meets its nodes. -/
theorem logs_blockOption :
    ∀ b : Option Block, Logs (observer.visitBlockOption b) (Block.entriesOption b)
  | none => .pure
  | some b => logs_block b

/-- A reading walk over statements meets their nodes, one after the other. -/
theorem logs_stmts : ∀ ts : List Stmt, Logs (observer.visitStmts ts) (Stmt.entriesList ts)
  | [] => .pure
  | t :: ts => (logs_stmt t).seq (logs_stmts ts)

/-- A reading walk over the branches of a choice meets their nodes, one after the other. -/
theorem logs_branches : ∀ bs : List Branch, Logs (observer.visitBranches bs) (Branch.entriesList bs)
  | [] => .pure
  | ⟨c, b⟩ :: bs => (logs_expr c).seq ((logs_block b).seq (logs_branches bs))

end

/-- A reading walk over a callable meets its nodes. -/
theorem logs_callable (c : Callable) : Logs (observer.visitCallable c) c.entries :=
  .node rfl ((logs_params c.params).seq (logs_block c.body))

/-- A reading walk over callables meets their nodes, one after the other. -/
theorem logs_callables :
    ∀ cs : List Callable, Logs (observer.visitCallables cs) (cs.flatMap Callable.entries)
  | [] => .pure
  | c :: cs => (logs_callable c).seq (logs_callables cs)

/-- A reading walk over a program meets its nodes. -/
theorem logs_program (p : Program) : Logs (observer.visitProgram p) p.entries :=
  .node rfl (logs_callables p.callables)

/-- A reading walk logs the nodes that it has a field for. -/
theorem read_eq (p : Program) : read p = p.entries.filter Entry.isRead := by
  have hwalk := logs_program p #[]
  unfold read
  rw [show (observer.visitProgram p).run #[] = _ from hwalk, toList_noted, List.nil_append]

/-! ### Rebuilding walks -/

section Rebuild

variable {ε α β : Type} {stop : Entry → Option ε}

/-- What a walk that meets the entries and builds `a` comes to, if it starts with the log: it stops at the first
entry that it is to stop at. -/
def halted (stop : Entry → Option ε) (a : α) : List Entry → Log → Except ε α × Log
  | [], log => (.ok a, log)
  | e :: es, log =>
      match stop e with
      | some err => (.error err, log.push e)
      | none => halted stop a es (log.push e)

/-- Whatever was logged before, the walk meets the entries and builds `a`, unless it stops. -/
def Builds (stop : Entry → Option ε) (walk : Stoppable ε α) (entries : List Entry) (a : α) : Prop :=
  ∀ log, walk.run.run log = halted stop a entries log

namespace Builds

variable {walk : Stoppable ε α} {next : α → Stoppable ε β} {es fs : List Entry} {e : Entry} {a : α}
  {b : β}

/-- A walk that only answers meets no node and stops nowhere. -/
theorem pure (a : α) : Builds stop (Pure.pure a) [] a := fun _ => rfl

/-- Where the first part of a walk stops, nothing comes after it. -/
theorem bind (h : Builds stop walk es a) (hnext : Builds stop (next a) fs b) :
    Builds stop (walk >>= next) (es ++ fs) b := by
  intro log
  have hrun : (walk >>= next).run.run log =
      match walk.run.run log with
      | (.ok a, log') => (next a).run.run log'
      | (.error err, log') => (.error err, log') := by
    rw [ExceptT.run_bind, StateT.run_bind]
    rcases walk.run.run log with ⟨_ | _, _⟩ <;> rfl
  rw [hrun, h log]
  clear hrun h
  induction es generalizing log with
  | nil => exact hnext log
  | cons e es ih =>
      rw [halted, List.cons_append, halted]
      cases stop e with
      | some err => rfl
      | none => exact ih _

/-- What comes after the last node of a walk makes something of what was built. -/
theorem into (h : Builds stop walk es a) (hnext : Builds stop (next a) [] b) :
    Builds stop (walk >>= next) es b := by
  have hboth := h.bind hnext
  rwa [List.append_nil] at hboth

/-- What is made of an answer is built of the same nodes. -/
theorem map (h : Builds stop walk es a) (g : α → β) : Builds stop (do return g (← walk)) es (g a) :=
  h.into (pure (g a))

/-- A node is logged, and may be stopped at, before what is inside it. -/
theorem node (h : Builds stop walk es a) : Builds stop (do checked stop e; walk) (e :: es) a := by
  have hchecked : Builds stop (checked stop e) [e] () := by
    intro log
    rw [halted]
    unfold checked
    cases hstop : stop e <;> rfl
  exact hchecked.bind h

end Builds

mutual

/-- Parameters are built again from their nodes, unless the walk stops at one of them. -/
theorem builds_params : ∀ p : Params, Builds stop ((rebuilder stop id).rebuildParams p) p.entries p
  | .binder _ => .node (.pure _)
  | .tuple items _ => .node ((builds_paramsList items).map _)
  | .unnamed _ => .node (.pure _)

/-- So is a list of parameters. -/
theorem builds_paramsList :
    ∀ ps : List Params, Builds stop ((rebuilder stop id).rebuildParamsList ps) (Params.entriesList ps) ps
  | [] => .pure _
  | p :: ps => (builds_params p).bind ((builds_paramsList ps).map _)

end

mutual

/-- A pattern is built again from its nodes, unless the walk stops at one of them. -/
theorem builds_pattern : ∀ p : Pattern, Builds stop ((rebuilder stop id).rebuildPattern p) p.entries p
  | .binder _ => .node (.pure _)
  | .tuple items _ => .node ((builds_patterns items).map _)
  | .discard _ => .node (.pure _)
  | .invalid _ => .node (.pure _)

/-- So is a list of patterns. -/
theorem builds_patterns :
    ∀ ps : List Pattern, Builds stop ((rebuilder stop id).rebuildPatterns ps) (Pattern.entriesList ps) ps
  | [] => .pure _
  | p :: ps => (builds_pattern p).bind ((builds_patterns ps).map _)

end

mutual

/-- An expression is built again from its nodes, unless the walk stops at one of them. -/
theorem builds_expr : ∀ e : Expr, Builds stop ((rebuilder stop id).rebuildExpr e) e.entries e
  | .int _ _ | .bool _ _ | .str _ _ | .unit _ => .node (.pure _)
  | .ref _ _ _ => .node (.node (.pure _))
  | .unary _ e _ => .node ((builds_expr e).map _)
  | .binary _ l r _ => .node ((builds_expr l).bind ((builds_expr r).map _))
  | .call f as _ => .node ((builds_expr f).bind ((builds_exprs as).map _))
  | .index b i _ => .node ((builds_expr b).bind ((builds_expr i).map _))
  | .tuple is _ => .node ((builds_exprs is).map _)
  | .array is _ => .node ((builds_exprs is).map _)

/-- So is a list of expressions. -/
theorem builds_exprs :
    ∀ es : List Expr, Builds stop ((rebuilder stop id).rebuildExprs es) (Expr.entriesList es) es
  | [] => .pure _
  | e :: es => (builds_expr e).bind ((builds_exprs es).map _)

end

/-- So is an expression that may be missing. -/
theorem builds_exprOption :
    ∀ e : Option Expr, Builds stop ((rebuilder stop id).rebuildExprOption e) (Expr.entriesOption e) e
  | none => .pure _
  | some e => (builds_expr e).map _

mutual

/-- A statement is built again from its nodes, unless the walk stops at one of them; the inside of a loop is
one. -/
theorem builds_stmt : ∀ t : Stmt, Builds stop ((rebuilder stop id).rebuildStmt t) t.entries t
  | .bind p _ e _ => .node ((builds_expr e).bind ((builds_pattern p).map _))
  | .assign t v _ => .node ((builds_expr t).bind ((builds_expr v).map _))
  | .eval v _ => .node ((builds_expr v).map _)
  | .ret v _ => .node ((builds_exprOption v).map _)
  | .choose bs b _ => .node ((builds_branches bs).bind ((builds_blockOption b).map _))
  | .loopWhile c b _ => .node ((builds_expr c).bind ((builds_block b).map _))
  | .loopFor p e b _ =>
      .node (.into
        (.node ((builds_expr e).bind ((builds_pattern p).bind ((builds_block b).map _)))) (.pure _))
  | .loopUntil b c f _ =>
      .node (.into
        (.node ((builds_block b).bind ((builds_expr c).bind ((builds_blockOption f).map _)))) (.pure _))
  | .block b _ => .node ((builds_block b).map _)

/-- So is a block. -/
theorem builds_block : ∀ b : Block, Builds stop ((rebuilder stop id).rebuildBlock b) b.entries b
  | ⟨stmts, _⟩ => .node ((builds_stmts stmts).map _)

/-- So is a block that may be missing. -/
theorem builds_blockOption :
    ∀ b : Option Block, Builds stop ((rebuilder stop id).rebuildBlockOption b) (Block.entriesOption b) b
  | none => .pure _
  | some b => (builds_block b).map _

/-- So are the statements of a block. -/
theorem builds_stmts :
    ∀ ts : List Stmt, Builds stop ((rebuilder stop id).rebuildStmts ts) (Stmt.entriesList ts) ts
  | [] => .pure _
  | t :: ts => (builds_stmt t).bind ((builds_stmts ts).map _)

/-- So are the branches of a choice. -/
theorem builds_branches :
    ∀ bs : List Branch, Builds stop ((rebuilder stop id).rebuildBranches bs) (Branch.entriesList bs) bs
  | [] => .pure _
  | ⟨c, b⟩ :: bs => (builds_expr c).bind ((builds_block b).bind ((builds_branches bs).map _))

end

/-- A callable is built again from its nodes, unless the walk stops at one of them. -/
theorem builds_callable (c : Callable) :
    Builds stop ((rebuilder stop id).rebuildCallable c) c.entries c :=
  .node ((builds_params c.params).bind ((builds_block c.body).map _))

/-- So are the callables of a program. -/
theorem builds_callables :
    ∀ cs : List Callable,
      Builds stop ((rebuilder stop id).rebuildCallables cs) (cs.flatMap Callable.entries) cs
  | [] => .pure _
  | c :: cs => (builds_callable c).bind ((builds_callables cs).map _)

/-- A program is built again from its nodes, unless the walk stops at one of them. -/
theorem builds_program (p : Program) :
    Builds stop ((rebuilder stop id).rebuildProgram p) p.entries p :=
  .node ((builds_callables p.callables).map _)

/-- A walk that is to stop at some of its entries stops at the first of them, before it meets the next. -/
theorem halted_cases (stop : Entry → Option ε) (a : α) (es : List Entry) (log : Log) :
    (∀ e ∈ es, stop e = none) ∧ halted stop a es log = (.ok a, log ++ es) ∨
      ∃ before e after err, es = before ++ e :: after ∧ (∀ x ∈ before, stop x = none) ∧
        stop e = some err ∧ halted stop a es log = (.error err, log ++ (before ++ [e])) := by
  induction es generalizing log with
  | nil => exact .inl ⟨fun _ h => absurd h List.not_mem_nil, by rw [Array.appendList_nil, halted]⟩
  | cons e es ih =>
      rw [halted]
      rcases hstop : stop e with _ | err
      · obtain ⟨hnone, hrun⟩ | ⟨before, f, after, err, rfl, hbefore, herr, hrun⟩ := ih (log.push e)
        · refine .inl ⟨List.forall_mem_cons.2 ⟨hstop, hnone⟩, ?_⟩
          rw [Array.appendList_cons]
          exact hrun
        · have hpasses : ∀ x ∈ e :: before, stop x = none := List.forall_mem_cons.2 ⟨hstop, hbefore⟩
          refine .inr ⟨e :: before, f, after, err, rfl, hpasses, herr, ?_⟩
          rw [List.cons_append, Array.appendList_cons]
          exact hrun
      · exact .inr ⟨[], e, es, err, rfl, fun _ h => absurd h List.not_mem_nil, hstop, rfl⟩

/-- A rebuilding walk over a program starts with an empty log and stops where it is to. -/
theorem rebuild_eq (p : Program) :
    rebuild stop id p = Prod.map id Array.toList (halted stop p p.entries #[]) := by
  have hwalk : Builds stop _ p.entries p := builds_program p
  unfold rebuild
  rw [hwalk]
  rfl

/-- Where there is nothing to stop at, the whole tree is met, and built again. -/
theorem rebuild_unstopped {p : Program} (h : ∀ e ∈ p.entries, stop e = none) :
    rebuild stop id p = (.ok p, p.entries) := by
  obtain ⟨-, hrun⟩ | ⟨before, e, after, err, hsplit, -, herr, -⟩ := halted_cases stop p p.entries #[]
  · rw [rebuild_eq, hrun]
    simp
  · have hnone := h e (hsplit ▸ List.mem_append_right before List.mem_cons_self)
    rw [hnone] at herr
    cases herr

end Rebuild

/-! ### Reading and rebuilding -/

/-- A part of a program that both kinds of walk have a field for. -/
def Entry.isPart : Entry → Bool
  | callable _ | params _ | block _ | stmt _ | pattern _ | expr _ => true
  | _ => false

/-- A reading walk has a field for every part of a program. -/
theorem Entry.isRead_of_isPart : ∀ {e : Entry}, e.isPart = true → e.isRead = true
  | callable _, _ | params _, _ | block _, _ | stmt _, _ | pattern _, _ | expr _, _ => rfl

/-- A rebuilding walk that does not stop meets every node of the program, in order; a reading walk meets those
of them that it has a field for. What a reading walk leaves out is the insides of loops and the identifiers. -/
theorem read_eq_rebuild (ε : Type) (p : Program) :
    rebuild (fun _ => (none : Option ε)) id p = (.ok p, p.entries) ∧
      read p = p.entries.filter Entry.isRead ∧
      (read p).filter Entry.isPart = p.entries.filter Entry.isPart := by
  refine ⟨rebuild_unstopped fun _ _ => rfl, read_eq p, ?_⟩
  rw [read_eq, List.filter_filter]
  refine List.filter_congr fun e _ => ?_
  by_cases he : e.isPart
  · rw [he, Entry.isRead_of_isPart he, Bool.and_self]
  · rw [eq_false_of_ne_true he, Bool.false_and]

/-- A rebuilding walk that refuses nothing gives back the program and has logged its nodes. A walk that refuses
some of them fails with the first, and has logged nothing after it; if none is refused it is the same walk. -/
theorem rebuild_first_refused (p : Program) (refused : Entry → Bool) :
    rebuild (Option.guard fun _ => false) id p = (.ok p, p.entries) ∧
      ((∀ e ∈ p.entries, refused e = false) ∧
          rebuild (Option.guard refused) id p = (.ok p, p.entries) ∨
        ∃ before e after, p.entries = before ++ e :: after ∧ (∀ x ∈ before, refused x = false) ∧
          refused e = true ∧ rebuild (Option.guard refused) id p = (.error e, before ++ [e])) := by
  refine ⟨rebuild_unstopped fun _ _ => rfl, ?_⟩
  have hpasses : ∀ e, Option.guard refused e = none ↔ refused e = false := fun e => by
    simp
  obtain ⟨hnone, hrun⟩ | ⟨before, e, after, err, hsplit, hbefore, herr, hrun⟩ :=
    halted_cases (Option.guard refused) p p.entries #[]
  · refine .inl ⟨fun e he => (hpasses e).1 (hnone e he), ?_⟩
    exact rebuild_unstopped hnone
  · obtain ⟨rfl, hrefused⟩ := Option.guard_eq_some_iff.1 herr
    refine .inr ⟨before, e, after, hsplit, fun x hx => (hpasses x).1 (hbefore x hx), hrefused, ?_⟩
    rw [rebuild_eq, hrun]
    simp

/-- A walk that refuses a name which is used in what closes a `repeat`: it has logged the insides of both loops,
and nothing of what comes after the name. -/
theorem rebuild_first_refused_loops : ∃ p before e after,
    Program.parse
        "fn f(n) \x7b for i in n \x7b\x7d repeat \x7b\x7d until b fixup \x7b g(i); \x7d; return n; \x7d" = .ok p ∧
      p.entries = before ++ e :: after ∧
      rebuild (Option.guard fun x => (poisonStop "g" x).isSome) id p = (.error e, before ++ [e]) ∧
      before.map Entry.rebuildLine =
        ["module", "callable f", "params [n]", "block 3", "stmt for", "for", "expr local n",
          "ident 19..20 local n", "pattern 14..15 [i]", "block 0", "stmt repeat", "repeat", "block 0",
          "expr local b", "ident 40..41 local b", "block 1", "stmt expr", "expr call 1", "expr local g"] ∧
      (e :: after).map Entry.rebuildLine =
        ["ident 50..51 local g", "expr local i", "ident 52..53 local i", "stmt return", "expr local n",
          "ident 66..67 local n"] := by
  let refused : Entry → Bool := fun x => (poisonStop "g" x).isSome
  obtain ⟨p, hp, hlines⟩ := Except.exists_map_eq_ok (show (Program.parse
      "fn f(n) \x7b for i in n \x7b\x7d repeat \x7b\x7d until b fixup \x7b g(i); \x7d; return n; \x7d").map
        (fun p => ((p.entries.takeWhile (!refused ·)).map Entry.rebuildLine,
          (p.entries.dropWhile (!refused ·)).map Entry.rebuildLine)) = .ok
      (["module", "callable f", "params [n]", "block 3", "stmt for", "for", "expr local n",
          "ident 19..20 local n", "pattern 14..15 [i]", "block 0", "stmt repeat", "repeat", "block 0",
          "expr local b", "ident 40..41 local b", "block 1", "stmt expr", "expr call 1", "expr local g"],
        ["ident 50..51 local g", "expr local i", "ident 52..53 local i", "stmt return", "expr local n",
          "ident 66..67 local n"]) by decide +kernel)
  obtain ⟨hbefore, hafter⟩ := Prod.mk.inj hlines
  obtain ⟨hnone, -⟩ | ⟨before, e, after, hsplit, hpasses, hrefused, hrun⟩ :=
    (rebuild_first_refused p refused).2
  · have hempty : p.entries.dropWhile (!refused ·) = [] :=
      List.dropWhile_eq_nil_iff.2 fun x hx => by rw [hnone x hx, Bool.not_false]
    rw [hempty] at hafter
    exact absurd hafter.symm (List.cons_ne_nil _ _)
  · -- the entries fall apart where the walk stops
    have hpass : ∀ x ∈ before, (!refused x) = true := fun x hx => by rw [hpasses x hx, Bool.not_false]
    have hstop : ¬(!refused e) = true := by rw [hrefused]; exact Bool.false_ne_true
    rw [hsplit, List.takeWhile_append_of_pos hpass,
      List.takeWhile_cons_of_neg (p := (!refused ·)) hstop, List.append_nil] at hbefore
    rw [hsplit, List.dropWhile_append_of_pos hpass,
      List.dropWhile_cons_of_neg (p := (!refused ·)) hstop] at hafter
    exact ⟨p, before, e, after, hp, hsplit, hrun, hbefore, hafter⟩

end Trace

end Freshen
