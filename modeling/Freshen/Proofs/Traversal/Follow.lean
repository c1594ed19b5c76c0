import Mathlib
import Freshen.Proofs.Scope.Events
import Freshen.Traversal.Observer

/-!
# Reading walks that follow scope events

An observer follows scope events if what it does at each kind of node is determined by the events
there.  Its walk over a callable is then a fold over the events of the callable.

- `Reaches`: a walk from one state ends in another.
- `Observer.Follows`: what an observer does at each kind of node, said by one step for each event.

**Key results.** `Observer.Follows.callable_events`: a walk over a callable ends in the state after
its events.
-/

namespace Freshen

/-! ### Walks without a value -/

section Reaches

variable {σ : Type} {walk next : StateM σ Unit} {s s₁ s₂ : σ}

/-- From the state `s`, the walk ends in `s'`. -/
def Reaches (walk : StateM σ Unit) (s s' : σ) : Prop := walk.run s = ((), s')

/-- A walk that does nothing leaves the state as it is. -/
theorem Reaches.pure (s : σ) : Reaches (Pure.pure ()) s s := rfl

/-- A walk that changes the state leaves the changed state. -/
theorem reaches_modify (change : σ → σ) (s : σ) : Reaches (modify change) s (change s) := rfl

/-- Two walks one after the other leave what the second leaves after the first. -/
theorem Reaches.seq (h : Reaches walk s s₁) (hnext : Reaches next s₁ s₂) :
    Reaches (do walk; next) s s₂ := by
  rw [Reaches, StateT.run_bind, h]
  exact hnext

end Reaches

/-! ### What happens at a node itself -/

/-- The events at parameters themselves, without those inside. -/
def Params.here : Params → List ScopeEvent
  | binder b => [.bind b.name]
  | _ => []

/-- The events at a pattern itself, without those inside. -/
def Pattern.here : Pattern → List ScopeEvent
  | binder b => [.bind b.name]
  | _ => []

/-- The events at an expression itself, without those inside. -/
def Expr.here : Expr → List ScopeEvent
  | ref target _ _ => target.locals.map .refer
  | _ => []

namespace Observer

/-- The walk of `o` does `step` at each scope event.  After `share`, the next block does not open and
close a frame.  What is said of blocks and statements is said of the states that are `Ready`. -/
structure Follows {σ : Type} (o : Observer (StateM σ)) (step : σ → ScopeEvent → σ) (share : σ → σ)
    (Ready : σ → Prop) : Prop where
  ready : ∀ {s}, Ready s → ∀ e, Ready (step s e)
  callable : ∀ {c walk s s'}, Reaches walk s s' → Reaches (o.callable c walk) s s'
  params : ∀ {p walk s s'}, Reaches walk (p.here.foldl step s) s' → Reaches (o.params p walk) s s'
  pattern : ∀ {p walk s s'}, Reaches walk (p.here.foldl step s) s' → Reaches (o.pattern p walk) s s'
  expr : ∀ {e walk s s'}, Reaches walk (e.here.foldl step s) s' → Reaches (o.expr e walk) s s'
  block : ∀ {b walk s s'}, Ready s → Reaches walk (step s .enter) s' →
    Reaches (o.block b walk) s (step s' .exit)
  shared : ∀ {b walk s s'}, Ready s → Reaches walk s s' → Reaches (o.block b walk) (share s) s'
  stmt : ∀ {t walk s s'}, (∀ b c f span, t ≠ .loopUntil b c f span) → Reaches walk s s' →
    Reaches (o.stmt t walk) s s'
  loopFor : ∀ {source pattern body s s₁ s₂ s₃}, Reaches source s s₁ →
    Reaches pattern (step s₁ .enter) s₂ → Reaches body s₂ s₃ →
    Reaches (o.loopFor source pattern body) s (step s₃ .exit)
  loopUntil : ∀ {b c f span walk s s'}, Reaches walk (share (step s .enter)) s' →
    Reaches (o.stmt (.loopUntil b c f span) walk) s (step s' .exit)

namespace Follows

variable {σ : Type} {o : Observer (StateM σ)} {step : σ → ScopeEvent → σ} {share : σ → σ}
  {Ready : σ → Prop}

/-- A state that is ready still is after events. -/
theorem ready_foldl (h : o.Follows step share Ready) :
    ∀ (es : List ScopeEvent) {s : σ}, Ready s → Ready (es.foldl step s)
  | [], _, hs => hs
  | e :: es, _, hs => h.ready_foldl es (h.ready hs e)

/-- The events of two parts, one after the other. -/
theorem seq {walk next : StateM σ Unit} {es fs : List ScopeEvent} {s : σ}
    (hwalk : Reaches walk s (es.foldl step s))
    (hnext : Reaches next (es.foldl step s) (fs.foldl step (es.foldl step s))) :
    Reaches (do walk; next) s ((es ++ fs).foldl step s) := by
  rw [List.foldl_append]
  exact hwalk.seq hnext

mutual

/-- A walk over parameters folds their events. -/
theorem params_events (h : o.Follows step share Ready) :
    ∀ (p : Params) (s : σ), Reaches (o.visitParams p) s (p.events.foldl step s)
  | .binder _, _ => h.params (.pure _)
  | .tuple items _, s => h.params (h.paramsList_events items s)
  | .unnamed _, _ => h.params (.pure _)

/-- A walk over a list of parameters folds the events of its items. -/
theorem paramsList_events (h : o.Follows step share Ready) :
    ∀ (ps : List Params) (s : σ),
      Reaches (o.visitParamsList ps) s (((Params.namesList ps).map .bind).foldl step s)
  | [], s => .pure s
  | p :: ps, s => by
      rw [Params.namesList, List.map_append]
      exact seq (h.params_events p s) (h.paramsList_events ps _)

end

mutual

/-- A walk over a pattern folds its events. -/
theorem pattern_events (h : o.Follows step share Ready) :
    ∀ (p : Pattern) (s : σ), Reaches (o.visitPattern p) s (p.events.foldl step s)
  | .binder _, _ => h.pattern (.pure _)
  | .tuple items _, s => h.pattern (h.patterns_events items s)
  | .discard _, _ => h.pattern (.pure _)
  | .invalid _, _ => h.pattern (.pure _)

/-- A walk over a list of patterns folds the events of its items. -/
theorem patterns_events (h : o.Follows step share Ready) :
    ∀ (ps : List Pattern) (s : σ),
      Reaches (o.visitPatterns ps) s (((Pattern.namesList ps).map .bind).foldl step s)
  | [], s => .pure s
  | p :: ps, s => by
      rw [Pattern.namesList, List.map_append]
      exact seq (h.pattern_events p s) (h.patterns_events ps _)

end

mutual

/-- A walk over an expression folds its events. -/
theorem expr_events (h : o.Follows step share Ready) :
    ∀ (e : Expr) (s : σ), Reaches (o.visitExpr e) s (e.events.foldl step s)
  | .int _ _, _ | .bool _ _, _ | .str _ _, _ | .unit _, _ | .ref _ _ _, _ => h.expr (.pure _)
  | .unary _ e _, s => h.expr (h.expr_events e s)
  | .binary _ l r _, s => h.expr (by
      rw [Expr.events, Expr.locals, List.map_append]
      exact seq (h.expr_events l s) (h.expr_events r _))
  | .call f as _, s => h.expr (by
      rw [Expr.events, Expr.locals, List.map_append]
      exact seq (h.expr_events f s) (h.exprs_events as _))
  | .index b i _, s => h.expr (by
      rw [Expr.events, Expr.locals, List.map_append]
      exact seq (h.expr_events b s) (h.expr_events i _))
  | .tuple is _, s => h.expr (h.exprs_events is s)
  | .array is _, s => h.expr (h.exprs_events is s)

/-- A walk over a list of expressions folds the events of its items. -/
theorem exprs_events (h : o.Follows step share Ready) :
    ∀ (es : List Expr) (s : σ),
      Reaches (o.visitExprs es) s (((Expr.localsList es).map .refer).foldl step s)
  | [], s => .pure s
  | e :: es, s => by
      rw [Expr.localsList, List.map_append]
      exact seq (h.expr_events e s) (h.exprs_events es _)

end

/-- A walk over an expression that may be missing folds its events. -/
theorem exprOption_events (h : o.Follows step share Ready) :
    ∀ (e : Option Expr) (s : σ),
      Reaches (o.visitExprOption e) s ((Expr.eventsOption e).foldl step s)
  | none, s => .pure s
  | some e, s => h.expr_events e s

mutual

/-- A walk over a statement folds its events. -/
theorem stmt_events (h : o.Follows step share Ready) :
    ∀ (t : Stmt) {s : σ}, Ready s → Reaches (o.visitStmt t) s (t.events.foldl step s)
  | .bind p _ e _, s, _ => h.stmt nofun (seq (h.expr_events e s) (h.pattern_events p _))
  | .assign t v _, s, _ => h.stmt nofun (seq (h.expr_events t s) (h.expr_events v _))
  | .eval v _, s, _ => h.stmt nofun (h.expr_events v s)
  | .ret v _, s, _ => h.stmt nofun (h.exprOption_events v s)
  | .choose bs b _, s, hs => h.stmt nofun
      (seq (h.branches_events bs hs) (h.blockOption_events b (h.ready_foldl _ hs)))
  | .loopWhile c b _, s, hs => h.stmt nofun
      (seq (h.expr_events c s) (h.block_events b (h.ready_foldl _ hs)))
  | .loopFor p e b _, s, hs => h.stmt nofun (by
      have hentered := h.ready (h.ready_foldl e.events hs) .enter
      simp only [Stmt.events, List.foldl_append, List.cons_append, List.foldl_cons]
      exact h.loopFor (h.expr_events e s) (h.pattern_events p _)
        (h.block_events b (h.ready_foldl _ hentered)))
  | .loopUntil b c f _, s, hs => by
      have hentered := h.ready hs .enter
      have hshared := h.ready_foldl b.innerEvents hentered
      simp only [Stmt.events, List.foldl_append, List.cons_append, List.foldl_cons]
      exact h.loopUntil ((h.shared_events b hentered).seq ((h.expr_events c _).seq
        (h.blockOption_events f (h.ready_foldl _ hshared))))
  | .block b _, _, hs => h.stmt nofun (h.block_events b hs)

/-- A walk over a block folds its events. -/
theorem block_events (h : o.Follows step share Ready) :
    ∀ (b : Block) {s : σ}, Ready s → Reaches (o.visitBlock b) s (b.events.foldl step s)
  | ⟨stmts, _⟩, s, hs => by
      simp only [Block.events, List.foldl_append, List.cons_append, List.foldl_cons]
      exact h.block hs (h.stmts_events stmts (h.ready hs .enter))

/-- A block that shares the frame around it. -/
theorem shared_events (h : o.Follows step share Ready) :
    ∀ (b : Block) {s : σ}, Ready s →
      Reaches (o.visitBlock b) (share s) (b.innerEvents.foldl step s)
  | ⟨stmts, _⟩, _, hs => h.shared hs (h.stmts_events stmts hs)

/-- A walk over a block that may be missing folds its events. -/
theorem blockOption_events (h : o.Follows step share Ready) :
    ∀ (b : Option Block) {s : σ}, Ready s →
      Reaches (o.visitBlockOption b) s ((Block.eventsOption b).foldl step s)
  | none, s, _ => .pure s
  | some b, _, hs => h.block_events b hs

/-- A walk over statements folds their events, one after the other. -/
theorem stmts_events (h : o.Follows step share Ready) :
    ∀ (ts : List Stmt) {s : σ}, Ready s →
      Reaches (o.visitStmts ts) s ((Stmt.eventsList ts).foldl step s)
  | [], s, _ => .pure s
  | t :: ts, _, hs => seq (h.stmt_events t hs) (h.stmts_events ts (h.ready_foldl _ hs))

/-- A walk over the branches of a choice folds their events, one after the other. -/
theorem branches_events (h : o.Follows step share Ready) :
    ∀ (bs : List Branch) {s : σ}, Ready s →
      Reaches (o.visitBranches bs) s ((Branch.eventsList bs).foldl step s)
  | [], s, _ => .pure s
  | ⟨c, b⟩ :: bs, s, hs => by
      have hcond := h.ready_foldl c.events hs
      rw [Branch.eventsList, List.foldl_append]
      exact (h.expr_events c s).seq (seq (h.block_events b hcond)
        (h.branches_events bs (h.ready_foldl _ hcond)))

end

/-- A walk over a callable ends in the state after its events. -/
theorem callable_events (h : o.Follows step share Ready) (c : Callable) {s : σ} (hs : Ready s) :
    Reaches (o.visitCallable c) s (c.events.foldl step s) :=
  h.callable (seq (h.params_events c.params s) (h.block_events c.body (h.ready_foldl _ hs)))

end Follows

end Observer

end Freshen
