import Mathlib
import Freshen.Proofs.Scope.Events
import Freshen.Proofs.Tree.Locals
import Freshen.Rename.Renamer

/-!
# Renaming as a replay of scope events

What renaming does to a tree is determined by the scope events of the tree: it answers each of them
with an event of the same kind, and the events of the renamed tree are these answers.

- `Context.step`, `Context.after`: the context after an event, and after a row of events.
- `Context.answer`, `Context.answers`: what an event, and a row of events, is answered with.
- `Renaming.Yields`: a computation on a context succeeds.

**Key results.** `Renaming.replays_block` and its companions: a walk over a tree succeeds, its context is the
one after the events of the tree, the tree that it returns has the answers for its events, and the
two trees differ in their local names only.  `Callable.renames`: so does renaming a callable, from
whatever context it starts.
-/

namespace Freshen

/-! ### Contexts and events -/

namespace Context

/-- What an event is answered with: a binding gets a fresh name, a reference the name that it is
resolved to, if there is one. -/
def answer (c : Context) : ScopeEvent → ScopeEvent
  | .enter => .enter
  | .exit => .exit
  | .bind name => .bind (c.registry.generate name).1
  | .refer name => .refer ((c.scopes.lookup name).getD name)

/-- The context after an event.  Without a frame nothing is bound and nothing is closed. -/
def step (c : Context) : ScopeEvent → Context
  | .enter => { c with scopes := c.scopes.enter }
  | .exit => { c with scopes := ⟨c.scopes.frames.tail⟩ }
  | .bind name =>
      let (fresh, registry) := c.registry.generate name
      let frames := c.scopes.frames.modifyHead (·.insert name fresh)
      { c with registry := registry, scopes := ⟨frames⟩ }
  | .refer name =>
      match c.scopes.lookup name with
      | some _ => c
      | none => { c with unresolved := c.unresolved.insert name }

/-- The context after a row of events. -/
def after (c : Context) (events : List ScopeEvent) : Context := events.foldl step c

/-- What a row of events is answered with. -/
def answers (c : Context) : List ScopeEvent → List ScopeEvent
  | [] => []
  | event :: events => c.answer event :: answers (c.step event) events

/-- While nothing happens, the context stays as it is. -/
@[simp] theorem after_nil (c : Context) : c.after [] = c := rfl

/-- The first event comes before the others. -/
@[simp] theorem after_cons (c : Context) (e : ScopeEvent) (es : List ScopeEvent) :
    c.after (e :: es) = (c.step e).after es := rfl

/-- Two rows of events happen one after the other. -/
@[simp] theorem after_append (c : Context) (es fs : List ScopeEvent) :
    c.after (es ++ fs) = (c.after es).after fs := List.foldl_append

/-- Where nothing happens, there is no answer. -/
@[simp] theorem answers_nil (c : Context) : c.answers [] = [] := rfl

/-- The first event is answered on the context, and the others on what it leaves. -/
@[simp] theorem answers_cons (c : Context) (e : ScopeEvent) (es : List ScopeEvent) :
    c.answers (e :: es) = c.answer e :: (c.step e).answers es := rfl

/-- Two rows of events are answered one after the other. -/
@[simp] theorem answers_append (c : Context) (es fs : List ScopeEvent) :
    c.answers (es ++ fs) = c.answers es ++ (c.after es).answers fs := by
  induction es generalizing c with
  | nil => rfl
  | cons e es ih => simp [ih]

/-- No event asks for a shared frame. -/
@[simp] theorem sharesNext_step (c : Context) (e : ScopeEvent) :
    (c.step e).sharesNext = c.sharesNext := by
  cases e with
  | refer name =>
      rw [step]
      split <;> rfl
  | _ => rfl

/-- No row of events asks for a shared frame. -/
@[simp] theorem sharesNext_after (c : Context) (es : List ScopeEvent) :
    (c.after es).sharesNext = c.sharesNext := by
  induction es generalizing c with
  | nil => rfl
  | cons e es ih => simp [ih]

/-- An exit closes the innermost frame. -/
theorem frames_step_exit (c : Context) : (c.step .exit).scopes.frames = c.scopes.frames.tail := rfl

/-- A binding adds the name with its fresh one to the innermost frame. -/
theorem frames_step_bind {c : Context} {top : Frame} {frames : List Frame}
    (h : c.scopes.frames = top :: frames) (name : Name) :
    (c.step (.bind name)).scopes.frames = top.insert name (c.registry.generate name).1 :: frames := by
  simp [step, h]

/-- A reference leaves all frames as they are. -/
theorem scopes_step_refer (c : Context) (name : Name) : (c.step (.refer name)).scopes = c.scopes := by
  rw [step]
  split <;> rfl

/-- Events in which frames open and close in pairs leave all frames but the innermost alone. -/
theorem frames_after {es : List ScopeEvent} (hes : ScopeEvent.Balanced es) {c : Context}
    {top : Frame} {frames : List Frame} (h : c.scopes.frames = top :: frames) :
    ∃ top', (c.after es).scopes.frames = top' :: frames := by
  induction hes generalizing c top frames with
  | nil => exact ⟨top, h⟩
  | bind n _ ih => exact ih (frames_step_bind h n)
  | refer n _ ih =>
      rw [← c.scopes_step_refer n] at h
      exact ih h
  | frame _ _ ihinner ih =>
      have henter : (c.step .enter).scopes.frames = {} :: c.scopes.frames := rfl
      obtain ⟨inner, hinner⟩ := ihinner henter
      rw [List.cons_append, after_cons, after_append, after_cons]
      apply ih
      rw [frames_step_exit, hinner, List.tail_cons, h]

/-- The context is ready for a walk: there is a frame, and no block is to share it. -/
structure Ready (c : Context) : Prop where
  frames_ne_nil : c.scopes.frames ≠ []
  sharesNext : c.sharesNext = false

/-- After balanced events, a context that was ready is ready again. -/
theorem Ready.after {c : Context} (h : c.Ready) {es : List ScopeEvent}
    (hes : ScopeEvent.Balanced es) : (c.after es).Ready := by
  obtain ⟨top, frames, hframes⟩ := List.exists_cons_of_ne_nil h.frames_ne_nil
  obtain ⟨top', htop⟩ := frames_after hes hframes
  exact ⟨by simp [htop], by simp [h.sharesNext]⟩

/-- In a new frame, a context that was ready still is. -/
theorem Ready.enter {c : Context} (h : c.Ready) : (c.step .enter).Ready :=
  ⟨by simp [step, Scopes.enter], h.sharesNext⟩

/-- The context after a reset is ready, whatever names are reserved. -/
theorem ready_start (reserved : List Name) : (start reserved).Ready :=
  ⟨by simp [start, Scopes.root], rfl⟩

end Context

/-! ### Computations that succeed -/

namespace Renaming

variable {α β : Type} {m : Renaming α} {f : α → Renaming β} {a : α} {b : β} {c c₁ c₂ : Context}

/-- On the context `c`, `m` succeeds with `a` and leaves the context `c'`. -/
def Yields (m : Renaming α) (c : Context) (a : α) (c' : Context) : Prop :=
  m.run.run c = (.ok a, c')

/-- A computation that only answers leaves the context as it is. -/
theorem Yields.pure (a : α) (c : Context) : Yields (Pure.pure a) c a c := rfl

/-- A computation that succeeds hands its answer and its context on to the next one. -/
theorem Yields.bind (hm : Yields m c a c₁) (hf : Yields (f a) c₁ b c₂) : Yields (m >>= f) c b c₂ := by
  rw [Yields, ExceptT.run_bind, StateT.run_bind, hm]
  exact hf

/-- What follows a computation may change its value. -/
theorem Yields.map (hm : Yields m c a c₁) (g : α → β) :
    Yields (do return g (← m)) c (g a) c₁ := hm.bind (.pure _ _)

/-- The context may be asked for. -/
theorem yields_get (c : Context) : Yields get c c c := rfl

/-- The context may be changed. -/
theorem yields_modify (change : Context → Context) (c : Context) :
    Yields (modify change) c () (change c) := rfl

/-- A change of the frames that succeeds changes nothing else. -/
theorem yields_onScopes {change : Scopes → Except ScopeError Scopes} {scopes : Scopes}
    (h : change c.scopes = .ok scopes) :
    Yields (onScopes change) c () { c with scopes := scopes } := by
  have hchange : Yields (liftM (change c.scopes)) c scopes c := by
    rw [h]
    rfl
  exact (yields_get c).bind (hchange.bind (yields_modify _ c))

/-- To enter a frame does to the context what the event does. -/
theorem yields_enter (c : Context) : Yields enter c () (c.step .enter) := yields_onScopes rfl

/-- Where a frame is open, to exit it does what the event does. -/
theorem yields_exit (h : c.scopes.frames ≠ []) : Yields exit c () (c.step .exit) := by
  refine yields_onScopes ?_
  obtain ⟨top, frames, hframes⟩ := List.exists_cons_of_ne_nil h
  simp [Scopes.exit, hframes]

/-- If there is a frame, a name can be declared. -/
theorem yields_declare (h : c.scopes.frames ≠ []) (name : Name) :
    Yields (declare name) c (c.registry.generate name).1 (c.step (.bind name)) := by
  obtain ⟨top, frames, hframes⟩ := List.exists_cons_of_ne_nil h
  have hbind : Yields (onScopes (·.bind name (c.registry.generate name).1))
      { c with registry := (c.registry.generate name).2 } () (c.step (.bind name)) :=
    yields_onScopes (by
      simp only [Scopes.bind, hframes, List.modifyHead_cons]
      rfl)
  exact (yields_get c).bind ((yields_modify _ c).bind (hbind.map _))

/-- To resolve a name answers with its replacement and does what the event does. -/
theorem yields_resolve (c : Context) (name : Name) :
    Yields (resolve name) c (c.scopes.lookup name) (c.step (.refer name)) := by
  refine (yields_get c).bind ?_
  rw [Context.step]
  cases c.scopes.lookup name with
  | some fresh => exact .pure _ _
  | none => exact (yields_modify _ c).map _

/-- The share flag is taken once: a context that shares is left as one that does not. -/
theorem yields_takeShared (h : c.sharesNext = false) (shared : Bool) :
    Yields takeShared { c with sharesNext := shared } shared c := by
  obtain ⟨registry, scopes, sharesNext, unresolved⟩ := c
  obtain rfl : sharesNext = false := h
  exact (yields_get _).bind ((yields_modify _ _).map _)

/-- Where no frame is to be shared, taking the flag changes nothing. -/
theorem yields_takeShared_false (h : c.sharesNext = false) : Yields takeShared c false c := by
  have hc : { c with sharesNext := false } = c := by rw [← h]
  exact hc ▸ yields_takeShared h false

/-- To ask for a shared frame sets the flag. -/
theorem yields_share (c : Context) : Yields share c () { c with sharesNext := true } :=
  yields_modify _ c

end Renaming

/-! ### The renamer's walks -/

namespace Renaming

/-- From the context `c`, a walk over `t` gives `t'`: its context is the one after the events of `t`,
`t'` has the answers to them for its events, and without local names the two trees are the same. -/
structure Replays {α : Type} (events : α → List ScopeEvent) (blot : α → α) (walk : Renaming α)
    (c : Context) (t t' : α) : Prop where
  yields : Yields walk c t' (c.after (events t))
  events_eq : events t' = c.answers (events t)
  blot_eq : blot t' = blot t

namespace Replays

variable {α β γ : Type} {ev : γ → List ScopeEvent} {blot : γ → γ}
  {ev₁ : α → List ScopeEvent} {blot₁ : α → α} {walk₁ : Renaming α} {a a' : α}
  {ev₂ : β → List ScopeEvent} {blot₂ : β → β} {walk₂ : Renaming β} {b b' : β} {c : Context}

/-- A tree without events stays. -/
theorem leaf {t : γ} (hev : ev t = []) : Replays ev blot (pure t) c t t where
  yields := by simpa [hev] using Yields.pure t c
  events_eq := by simp [hev]
  blot_eq := rfl

/-- The walk over a node with one part. -/
theorem one (mk : α → γ) (h : Replays ev₁ blot₁ walk₁ c a a')
    (hev : ∀ x, ev (mk x) = ev₁ x) (hblot : ∀ x, blot (mk x) = mk (blot₁ x)) :
    Replays ev blot (do return mk (← walk₁)) c (mk a) (mk a') where
  yields := hev a ▸ h.yields.map mk
  events_eq := by rw [hev, hev, h.events_eq]
  blot_eq := by rw [hblot, hblot, h.blot_eq]

/-- The walk over a node with two parts. -/
theorem two (mk : α → β → γ) (h₁ : Replays ev₁ blot₁ walk₁ c a a')
    (h₂ : Replays ev₂ blot₂ walk₂ (c.after (ev₁ a)) b b')
    (hev : ∀ x y, ev (mk x y) = ev₁ x ++ ev₂ y)
    (hblot : ∀ x y, blot (mk x y) = mk (blot₁ x) (blot₂ y)) :
    Replays ev blot (do let x ← walk₁; let y ← walk₂; return mk x y) c (mk a b) (mk a' b') where
  yields := by
    rw [hev, Context.after_append]
    exact h₁.yields.bind (h₂.yields.map (mk a'))
  events_eq := by rw [hev, hev, h₁.events_eq, h₂.events_eq, Context.answers_append]
  blot_eq := by rw [hblot, hblot, h₁.blot_eq, h₂.blot_eq]

/-- The walk over a node with three parts. -/
theorem three {δ : Type} {ev₃ : δ → List ScopeEvent} {blot₃ : δ → δ} {walk₃ : Renaming δ} {d d' : δ}
    (mk : α → β → δ → γ) (h₁ : Replays ev₁ blot₁ walk₁ c a a')
    (h₂ : Replays ev₂ blot₂ walk₂ (c.after (ev₁ a)) b b')
    (h₃ : Replays ev₃ blot₃ walk₃ ((c.after (ev₁ a)).after (ev₂ b)) d d')
    (hev : ∀ x y z, ev (mk x y z) = ev₁ x ++ (ev₂ y ++ ev₃ z))
    (hblot : ∀ x y z, blot (mk x y z) = mk (blot₁ x) (blot₂ y) (blot₃ z)) :
    Replays ev blot (do let x ← walk₁; let y ← walk₂; let z ← walk₃; return mk x y z) c
      (mk a b d) (mk a' b' d') where
  yields := by
    rw [hev, Context.after_append, Context.after_append]
    exact h₁.yields.bind (h₂.yields.bind (h₃.yields.map (mk a' b')))
  events_eq := by
    rw [hev, hev, h₁.events_eq, h₂.events_eq, h₃.events_eq, Context.answers_append,
      Context.answers_append]
  blot_eq := by rw [hblot, hblot, h₁.blot_eq, h₂.blot_eq, h₃.blot_eq]

end Replays

mutual

/-- To rebuild parameters replays their events. -/
theorem replays_params : ∀ (p : Params) {c : Context}, c.Ready →
    ∃ p', Replays Params.events Params.withoutLocals (renamer.rebuildParams p) c p p'
  | .binder b, c, hc => by
      refine ⟨.binder { b with name := (c.registry.generate b.name).1 }, ?_, rfl, rfl⟩
      exact (yields_declare hc.frames_ne_nil b.name).map fun name =>
        Params.binder { b with name := name }
  | .tuple items s, c, hc => by
      obtain ⟨items', h⟩ := replays_paramsList items hc
      exact ⟨_, h.one (Params.tuple · s) (fun _ => rfl) fun _ => rfl⟩
  | .unnamed s, c, _ => ⟨_, .leaf rfl⟩

/-- To rebuild a list of parameters replays the events of its items. -/
theorem replays_paramsList : ∀ (ps : List Params) {c : Context}, c.Ready →
    ∃ ps', Replays (fun ps => (Params.namesList ps).map .bind) Params.withoutLocalsList
      (renamer.rebuildParamsList ps) c ps ps'
  | [], c, _ => ⟨_, .leaf rfl⟩
  | p :: ps, c, hc => by
      obtain ⟨p', hp⟩ := replays_params p hc
      obtain ⟨ps', hps⟩ := replays_paramsList ps (hc.after p.balanced_events)
      exact ⟨_, hp.two List.cons hps (fun _ _ => List.map_append) fun _ _ => rfl⟩

end

mutual

/-- To rebuild a pattern replays its events. -/
theorem replays_pattern : ∀ (p : Pattern) {c : Context}, c.Ready →
    ∃ p', Replays Pattern.events Pattern.withoutLocals (renamer.rebuildPattern p) c p p'
  | .binder b, c, hc => by
      refine ⟨.binder { b with name := (c.registry.generate b.name).1 }, ?_, rfl, rfl⟩
      exact (yields_declare hc.frames_ne_nil b.name).map fun name =>
        Pattern.binder { b with name := name }
  | .tuple items s, c, hc => by
      obtain ⟨items', h⟩ := replays_patterns items hc
      exact ⟨_, h.one (Pattern.tuple · s) (fun _ => rfl) fun _ => rfl⟩
  | .discard s, c, _ => ⟨_, .leaf rfl⟩
  | .invalid s, c, _ => ⟨_, .leaf rfl⟩

/-- To rebuild a list of patterns replays the events of its items. -/
theorem replays_patterns : ∀ (ps : List Pattern) {c : Context}, c.Ready →
    ∃ ps', Replays (fun ps => (Pattern.namesList ps).map .bind) Pattern.withoutLocalsList
      (renamer.rebuildPatterns ps) c ps ps'
  | [], c, _ => ⟨_, .leaf rfl⟩
  | p :: ps, c, hc => by
      obtain ⟨p', hp⟩ := replays_pattern p hc
      obtain ⟨ps', hps⟩ := replays_patterns ps (hc.after p.balanced_events)
      exact ⟨_, hp.two List.cons hps (fun _ _ => List.map_append) fun _ _ => rfl⟩

end

/-- To rebuild a reference replays the reference to its local name, if it has one. -/
theorem replays_reference (target : Reference) (args : Option (List TypeExpr)) (s : Span)
    (c : Context) :
    ∃ e, Replays Expr.events Expr.withoutLocals (renamer.reference target args s) c
      (.ref target args s) e := by
  cases target with
  | unqualified name =>
      refine ⟨.ref (.unqualified ((c.scopes.lookup name).getD name)) args s, ?_, rfl, rfl⟩
      exact (yields_resolve c name).map fun found =>
        Expr.ref (.unqualified (found.getD name)) args s
  | qualified qualifiers name => exact ⟨_, .leaf rfl⟩

mutual

/-- To rebuild an expression replays its events, on any context. -/
theorem replays_expr : ∀ (e : Expr) {c : Context},
    ∃ e', Replays Expr.events Expr.withoutLocals (renamer.rebuildExpr e) c e e'
  | .int _ _, c | .bool _ _, c | .str _ _, c | .unit _, c => ⟨_, .leaf rfl⟩
  | .ref target args s, c => replays_reference target args s c
  | .unary op e s, c => by
      obtain ⟨e', h⟩ := replays_expr e
      exact ⟨_, h.one (Expr.unary op · s) (fun _ => rfl) fun _ => rfl⟩
  | .binary op l r s, c => by
      obtain ⟨l', hl⟩ := replays_expr l
      obtain ⟨r', hr⟩ := replays_expr r
      exact ⟨_, hl.two (Expr.binary op · · s) hr (fun _ _ => List.map_append) fun _ _ => rfl⟩
  | .call f as s, c => by
      obtain ⟨f', hf⟩ := replays_expr f
      obtain ⟨as', has⟩ := replays_exprs as
      exact ⟨_, hf.two (Expr.call · · s) has (fun _ _ => List.map_append) fun _ _ => rfl⟩
  | .index b i s, c => by
      obtain ⟨b', hb⟩ := replays_expr b
      obtain ⟨i', hi⟩ := replays_expr i
      exact ⟨_, hb.two (Expr.index · · s) hi (fun _ _ => List.map_append) fun _ _ => rfl⟩
  | .tuple is s, c => by
      obtain ⟨is', h⟩ := replays_exprs is
      exact ⟨_, h.one (Expr.tuple · s) (fun _ => rfl) fun _ => rfl⟩
  | .array is s, c => by
      obtain ⟨is', h⟩ := replays_exprs is
      exact ⟨_, h.one (Expr.array · s) (fun _ => rfl) fun _ => rfl⟩

/-- To rebuild a list of expressions replays the events of its items. -/
theorem replays_exprs : ∀ (es : List Expr) {c : Context},
    ∃ es', Replays (fun es => (Expr.localsList es).map .refer) Expr.withoutLocalsList
      (renamer.rebuildExprs es) c es es'
  | [], c => ⟨_, .leaf rfl⟩
  | e :: es, c => by
      obtain ⟨e', he⟩ := replays_expr e
      obtain ⟨es', hes⟩ := replays_exprs es
      exact ⟨_, he.two List.cons hes (fun _ _ => List.map_append) fun _ _ => rfl⟩

end

/-- To rebuild an expression that may be missing replays its events. -/
theorem replays_exprOption (c : Context) : ∀ e : Option Expr,
    ∃ e', Replays Expr.eventsOption (·.map Expr.withoutLocals) (renamer.rebuildExprOption e) c e e'
  | none => ⟨_, .leaf rfl⟩
  | some e => by
      obtain ⟨e', h⟩ := replays_expr e
      exact ⟨_, h.one some (fun _ => rfl) fun _ => rfl⟩

/-- A `let` is returned as a `let`. -/
theorem replays_let (p : Pattern) (mutable : Bool) (e : Expr) (s : Span) {c : Context} (hc : c.Ready) :
    ∃ e' p', Replays Stmt.events Stmt.withoutLocals (renamer.rebuildStmt (.bind p mutable e s)) c
      (.bind p mutable e s) (.bind p' mutable e' s) := by
  obtain ⟨e', he⟩ := replays_expr e
  obtain ⟨p', hp⟩ := replays_pattern p (hc.after e.balanced_events)
  exact ⟨e', p', he.two (fun e p => Stmt.bind p mutable e s) hp (fun _ _ => rfl) fun _ _ => rfl⟩

/-- Events between the opening and the closing of a frame are answered in the frame. -/
theorem answers_inFrame (c : Context) (es : List ScopeEvent) :
    c.answers (.enter :: es ++ [.exit]) = .enter :: (c.step .enter).answers es ++ [.exit] := by
  simp [Context.answer]

mutual

/-- To rebuild a statement replays its events. -/
theorem replays_stmt : ∀ (t : Stmt) {c : Context}, c.Ready →
    ∃ t', Replays Stmt.events Stmt.withoutLocals (renamer.rebuildStmt t) c t t'
  | .bind p mutable e s, c, hc => by
      obtain ⟨e', p', h⟩ := replays_let p mutable e s hc
      exact ⟨_, h⟩
  | .assign t v s, c, _ => by
      obtain ⟨t', ht⟩ := replays_expr t
      obtain ⟨v', hv⟩ := replays_expr v
      exact ⟨_, ht.two (Stmt.assign · · s) hv (fun _ _ => rfl) fun _ _ => rfl⟩
  | .eval v s, c, _ => by
      obtain ⟨v', h⟩ := replays_expr v
      exact ⟨_, h.one (Stmt.eval · s) (fun _ => rfl) fun _ => rfl⟩
  | .ret v s, c, _ => by
      obtain ⟨v', h⟩ := replays_exprOption c v
      exact ⟨_, h.one (Stmt.ret · s) (fun _ => rfl) fun _ => rfl⟩
  | .choose bs b s, c, hc => by
      obtain ⟨bs', hbs⟩ := replays_branches bs hc
      obtain ⟨b', hb⟩ := replays_blockOption b (hc.after (Branch.balanced_eventsList bs))
      exact ⟨_, hbs.two (Stmt.choose · · s) hb (fun _ _ => rfl) fun _ _ => rfl⟩
  | .loopWhile cond b s, c, hc => by
      obtain ⟨cond', hcond⟩ := replays_expr cond
      obtain ⟨b', hb⟩ := replays_block b (hc.after cond.balanced_events)
      exact ⟨_, hcond.two (Stmt.loopWhile · · s) hb (fun _ _ => rfl) fun _ _ => rfl⟩
  | .loopFor p e b s, c, hc => by
      obtain ⟨e', he⟩ := replays_expr e
      have hentered := (hc.after e.balanced_events).enter
      obtain ⟨p', hp⟩ := replays_pattern p hentered
      have hbound := hentered.after p.balanced_events
      obtain ⟨b', hb⟩ := replays_block b hbound
      have hexit := yields_exit (hbound.after b.balanced_events).frames_ne_nil
      refine ⟨.loopFor p' e' b' s, ?_, ?_, ?_⟩
      · have hloop : Yields (renamer.loopFor p e b (renamer.rebuildExpr e) (renamer.rebuildPattern p)
            (renamer.rebuildBlock b)) c (e', p', b') (c.after (Stmt.loopFor p e b s).events) := by
          simp only [Stmt.events, Context.after_append, Context.after_cons, List.cons_append]
          exact he.yields.bind ((yields_enter _).bind (hp.yields.bind (hb.yields.bind
            (hexit.bind (.pure _ _)))))
        exact hloop.map fun (e, p, b) => Stmt.loopFor p e b s
      · simp only [Stmt.events]
        rw [Context.answers_append, answers_inFrame, Context.answers_append, he.events_eq,
          hp.events_eq, hb.events_eq]
      · simp only [Stmt.withoutLocals]
        rw [he.blot_eq, hp.blot_eq, hb.blot_eq]
  | .loopUntil b cond f s, c, hc => by
      have hentered := hc.enter
      -- the body shares the frame of the loop, so that the condition sees its names
      obtain ⟨b', hb⟩ := replays_shared b hentered
      have hshared := hentered.after b.balanced_innerEvents
      obtain ⟨cond', hcond⟩ := replays_expr cond
      have hcondition := hshared.after cond.balanced_events
      obtain ⟨f', hf⟩ := replays_blockOption f hcondition
      have hexit := yields_exit
        (hcondition.after (Block.balanced_eventsOption f)).frames_ne_nil
      refine ⟨.loopUntil b' cond' f' s, ?_, ?_, ?_⟩
      · have hloop : Yields (renamer.loopUntil b cond f do
              let b' ← renamer.rebuildBlock b
              let cond' ← renamer.rebuildExpr cond
              let f' ← renamer.rebuildBlockOption f
              return (b', cond', f')) c (b', cond', f')
            (c.after (Stmt.loopUntil b cond f s).events) := by
          simp only [Stmt.events, Context.after_append, Context.after_cons, List.cons_append]
          refine (yields_enter c).bind ((yields_share _).bind (Yields.bind ?_ (hexit.bind
            (.pure (b', cond', f') _))))
          exact Yields.bind hb.yields (hcond.yields.bind (hf.yields.map fun f => (b', cond', f)))
        exact hloop.map fun (b, c, f) => Stmt.loopUntil b c f s
      · simp only [Stmt.events]
        rw [answers_inFrame, Context.answers_append, Context.answers_append, hb.events_eq,
          hcond.events_eq, hf.events_eq]
      · simp only [Stmt.withoutLocals]
        rw [hb.blot_eq, hcond.blot_eq, hf.blot_eq]
  | .block b s, c, hc => by
      obtain ⟨b', h⟩ := replays_block b hc
      exact ⟨_, h.one (Stmt.block · s) (fun _ => rfl) fun _ => rfl⟩

/-- To rebuild a block replays its events, in a frame of its own. -/
theorem replays_block : ∀ (b : Block) {c : Context}, c.Ready →
    ∃ b', Replays Block.events Block.withoutLocals (renamer.rebuildBlock b) c b b'
  | ⟨stmts, s⟩, c, hc => by
      obtain ⟨stmts', h⟩ := replays_stmts stmts hc.enter
      have hexit := yields_exit (hc.enter.after (Stmt.balanced_eventsList stmts)).frames_ne_nil
      refine ⟨⟨stmts', s⟩, ?_, ?_, ?_⟩
      · simp only [Block.events, Context.after_append, Context.after_cons, List.cons_append]
        refine (yields_takeShared_false hc.sharesNext).bind ?_
        rw [if_neg Bool.false_ne_true]
        exact (yields_enter c).bind (Yields.bind (h.yields.map (Block.mk · s)) (hexit.map fun _ =>
          Block.mk stmts' s))
      · simp only [Block.events]
        rw [answers_inFrame, h.events_eq]
      · simp only [Block.withoutLocals]
        rw [h.blot_eq]

/-- A block that is to share the innermost frame. -/
theorem replays_shared : ∀ (b : Block) {c : Context}, c.Ready →
    ∃ b', Replays Block.innerEvents Block.withoutLocals (do share; renamer.rebuildBlock b) c b b'
  | ⟨stmts, s⟩, c, hc => by
      obtain ⟨stmts', h⟩ := replays_stmts stmts hc
      refine ⟨⟨stmts', s⟩, ?_, h.events_eq, congrArg (Block.mk · s) h.blot_eq⟩
      exact (yields_share c).bind ((yields_takeShared hc.sharesNext true).bind
        (h.yields.map (Block.mk · s)))

/-- To rebuild a block that may be missing replays its events. -/
theorem replays_blockOption : ∀ (b : Option Block) {c : Context}, c.Ready →
    ∃ b', Replays Block.eventsOption Block.withoutLocalsOption (renamer.rebuildBlockOption b) c b b'
  | none, c, _ => ⟨_, .leaf rfl⟩
  | some b, c, hc => by
      obtain ⟨b', h⟩ := replays_block b hc
      exact ⟨_, h.one some (fun _ => rfl) fun _ => rfl⟩

/-- To rebuild statements replays their events, one after the other. -/
theorem replays_stmts : ∀ (ts : List Stmt) {c : Context}, c.Ready →
    ∃ ts', Replays Stmt.eventsList Stmt.withoutLocalsList (renamer.rebuildStmts ts) c ts ts'
  | [], c, _ => ⟨_, .leaf rfl⟩
  | t :: ts, c, hc => by
      obtain ⟨t', ht⟩ := replays_stmt t hc
      obtain ⟨ts', hts⟩ := replays_stmts ts (hc.after t.balanced_events)
      exact ⟨_, ht.two List.cons hts (fun _ _ => rfl) fun _ _ => rfl⟩

/-- To rebuild the branches of a choice replays their events, one after the other. -/
theorem replays_branches : ∀ (bs : List Branch) {c : Context}, c.Ready →
    ∃ bs', Replays Branch.eventsList Branch.withoutLocalsList (renamer.rebuildBranches bs) c bs bs'
  | [], c, _ => ⟨_, .leaf rfl⟩
  | ⟨cond, b⟩ :: bs, c, hc => by
      obtain ⟨cond', hcond⟩ := replays_expr cond
      obtain ⟨b', hb⟩ := replays_block b (hc.after cond.balanced_events)
      obtain ⟨bs', hbs⟩ := replays_branches bs
        ((hc.after cond.balanced_events).after b.balanced_events)
      exact ⟨⟨cond', b'⟩ :: bs', hcond.three (fun c b bs => Branch.mk c b :: bs) hb hbs
        (fun _ _ _ => by rw [Branch.eventsList]) fun _ _ _ => by rw [Branch.withoutLocalsList]⟩

end

/-- The number of frames may be asked for. -/
theorem yields_depth (c : Context) : Yields depth c c.scopes.depth c := (yields_get c).map _

end Renaming

/-! ### Renaming a callable -/

namespace Callable

open Renaming

/-- `c'` is `c` with new local names: its events are answered from a context in which its free
references are reserved, and nothing else changes. -/
structure Renamed (c c' : Callable) : Prop where
  events_eq : c'.events = (Context.start c.freeLocals).answers c.events
  withoutLocals_eq : c'.withoutLocals = c.withoutLocals

/-- Renaming a callable succeeds, whatever context it starts on. -/
theorem renames (c : Callable) (context : Context) :
    ∃ c', c.renameOn context = (.ok c', (Context.start c.freeLocals).after c.events) ∧
      c.Renamed c' := by
  have hready := Context.ready_start c.freeLocals
  obtain ⟨params, hparams⟩ := replays_params c.params hready
  obtain ⟨body, hbody⟩ := replays_block c.body (hready.after c.params.balanced_events)
  refine ⟨{ c with params := params, body := body }, ?_, ?_, ?_⟩
  · obtain ⟨top, hframes⟩ := Context.frames_after c.balanced_events
      (show (Context.start c.freeLocals).scopes.frames = [{}] from rfl)
    have hdepth : ((Context.start c.freeLocals).after c.events).scopes.depth = 1 := by
      rw [Scopes.depth, hframes, List.length_singleton]
    have hwalk : Yields (do
          let params ← renamer.rebuildParams c.params
          let body ← renamer.rebuildBlock c.body
          return { c with params := params, body := body })
        (Context.start c.freeLocals) { c with params := params, body := body }
        ((Context.start c.freeLocals).after c.events) := by
      rw [events, Context.after_append]
      exact hparams.yields.bind (hbody.yields.map fun body => { c with params := params, body := body })
    have hreset : Yields (reset c.freeLocals) context () (Context.start c.freeLocals) := rfl
    have hcallable : Yields (renamer.rebuildCallable c) context
        { c with params := params, body := body }
        ((Context.start c.freeLocals).after c.events) := by
      refine hreset.bind (hwalk.bind ((yields_depth _).bind ?_))
      rw [if_pos hdepth]
      exact .pure _ _
    rw [renameOn, hcallable]
    rfl
  · rw [events, events, Context.answers_append, ← hparams.events_eq, ← hbody.events_eq]
  · rw [withoutLocals, withoutLocals, hparams.blot_eq, hbody.blot_eq]

/-- Renaming a callable on a context of its own succeeds. -/
theorem rename_eq (c : Callable) : ∃ c', c.rename = .ok c' ∧ c.Renamed c' := by
  obtain ⟨c', hrename, h⟩ := c.renames .fresh
  exact ⟨c', by rw [rename, hrename], h⟩

/-- Renaming callables one after the other succeeds and renames each. -/
theorem renameAllOn_eq (cs : List Callable) (context : Context) :
    ∃ cs', renameAllOn cs context = .ok cs' ∧ List.Forall₂ Renamed cs cs' := by
  induction cs generalizing context with
  | nil => exact ⟨[], rfl, .nil⟩
  | cons c cs ih =>
      obtain ⟨c', hrename, hc⟩ := c.renames context
      obtain ⟨cs', hrenames, hcs⟩ := ih ((Context.start c.freeLocals).after c.events)
      exact ⟨c' :: cs', by rw [renameAllOn, hrename]; simp only [hrenames]; rfl, .cons hc hcs⟩

end Callable

/-- Renaming a program succeeds and renames each of its callables. -/
theorem Program.rename_eq (p : Program) :
    ∃ p', p.rename = .ok p' ∧ List.Forall₂ Callable.Renamed p.callables p'.callables := by
  obtain ⟨cs', hrename, h⟩ := Callable.renameAllOn_eq p.callables .fresh
  exact ⟨⟨cs'⟩, by rw [rename, hrename]; rfl, h⟩

end Freshen
