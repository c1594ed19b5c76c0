import Mathlib
import Freshen.Proofs.Naming.Allocation
import Freshen.Proofs.Rename.Replay

/-!
# What a walk does to frames

A walk of the renamer opens and closes frames on its way, and leaves the ones that it found as they were, but
for the bindings of a `let` or a pattern, which stay in the innermost frame.

- `Frame.bindAll`: a frame in which names were bound; `Frame.Rebinds` says what that changes.
- `ScopeEvent.surface`: the names that events bind in one frame, and not in a frame inside it.
- `Context.Grows`: no frame more or less, no block is to share one, and nothing that is remembered is forgotten.
- `Stmt.letNames`, `Block.letNames`: the names of a `let`, and of those that stand in a block itself.

**Key results.** `Context.frames_after_eq`: events in which frames open and close in pairs bind their surface
names in the innermost frame and change nothing else; `Renaming.rebuild_frames`: what this says of expressions,
patterns, statements and blocks, also of a block that is to share the innermost frame.
-/

namespace Freshen

/-! ### Names bound in a frame -/

namespace Frame

/-- A frame in which names were bound one after the other, each to the fresh name at its place. -/
def bindAll (frame : Frame) (names fresh : List Name) : Frame :=
  (names.zip fresh).foldl (fun frame pair => frame.insert pair.1 pair.2) frame

/-- Without names a frame stays as it is. -/
@[simp] theorem bindAll_nil (frame : Frame) (fresh : List Name) : frame.bindAll [] fresh = frame := rfl

/-- The first name is bound before the others are. -/
@[simp] theorem bindAll_cons (frame : Frame) (name new : Name) (names fresh : List Name) :
    frame.bindAll (name :: names) (new :: fresh) = Frame.bindAll (frame.insert name new) names fresh := rfl

/-- The frame `after` is `before` with `names` bound to `fresh`. -/
structure Rebinds (before : Frame) (names fresh : List Name) (after : Frame) : Prop where
  eq_bindAll : after = before.bindAll names fresh
  /-- There is a fresh name for each of the names, -/
  length_eq : fresh.length = names.length
  /-- the names are added to those that are bound, -/
  mem_iff : ∀ name, name ∈ after ↔ name ∈ names ∨ name ∈ before
  /-- and what is not among them stays as it was. -/
  getElem?_eq : ∀ name ∉ names, after[name]? = before[name]?

/-- To bind names one after the other is to rebind them, if there are as many fresh names. -/
theorem rebinds_bindAll (before : Frame) {names fresh : List Name} (h : fresh.length = names.length) :
    before.Rebinds names fresh (before.bindAll names fresh) := by
  induction names generalizing before fresh with
  | nil => exact ⟨rfl, h, by simp, fun _ _ => rfl⟩
  | cons name names ih =>
      cases fresh with
      | nil => cases h
      | cons new fresh =>
          have hrest := ih (before.insert name new) (Nat.succ.inj h)
          refine ⟨rfl, h, fun other => ?_, fun other hother => ?_⟩
          · rw [bindAll_cons, hrest.mem_iff, Std.TreeMap.mem_insert, List.mem_cons, compare_eq_iff_eq]
            tauto
          · obtain ⟨hne, hother⟩ := List.ne_and_not_mem_of_not_mem_cons hother
            rw [bindAll_cons, hrest.getElem?_eq other hother, Std.TreeMap.getElem?_insert,
              if_neg (fun h => hne (compare_eq_iff_eq.1 h).symm)]

end Frame

/-! ### Names bound where events start -/

namespace ScopeEvent

/-- The names that events bind in an open frame; when they start, `depth` frames have opened inside it. -/
def surface : Nat → List ScopeEvent → List Name
  | _, [] => []
  | depth, enter :: es => surface (depth + 1) es
  | depth, exit :: es => surface (depth - 1) es
  | depth, bind name :: es => if depth = 0 then name :: surface depth es else surface depth es
  | depth, refer _ :: es => surface depth es

/-- Names that are bound one after the other are all bound in the open frame. -/
@[simp] theorem surface_map_bind (names : List Name) : surface 0 (names.map bind) = names := by
  induction names with
  | nil => rfl
  | cons name names ih => rw [List.map_cons, surface, if_pos rfl, ih]

/-- References bind nothing. -/
@[simp] theorem surface_map_refer (names : List Name) : surface 0 (names.map refer) = [] := by
  induction names with
  | nil => rfl
  | cons name names ih => rw [List.map_cons, surface, ih]

namespace Balanced

variable {es fs : List ScopeEvent}

/-- What follows events in which frames open and close in pairs stands at the same depth. -/
theorem surface_append (h : Balanced es) (depth : Nat) :
    surface depth (es ++ fs) = surface depth es ++ surface depth fs := by
  induction h generalizing depth fs with
  | nil => rfl
  | bind name _ ih =>
      rw [List.cons_append, surface, surface, ih]
      split_ifs <;> rfl
  | refer name _ ih => exact ih depth
  | frame _ _ ihinner ih =>
      rw [List.append_assoc, List.cons_append, List.cons_append, List.cons_append, surface, surface, ihinner,
        ihinner, List.append_assoc, surface, surface, Nat.add_sub_cancel, ih]

/-- In a frame inside, nothing is bound in the one around it. -/
theorem surface_succ (h : Balanced es) (depth : Nat) : surface (depth + 1) es = [] := by
  induction h generalizing depth with
  | nil => rfl
  | bind name _ ih => rw [surface, if_neg depth.succ_ne_zero, ih]
  | refer name _ ih => exact ih depth
  | frame hinner _ ihinner ih =>
      rw [List.cons_append, surface, hinner.surface_append, ihinner, List.nil_append, surface,
        Nat.add_sub_cancel, ih]

/-- What is bound in a frame that was left again is not bound in the open frame. -/
theorem surface_frame (h : Balanced es) : surface 0 (enter :: es ++ exit :: fs) = surface 0 fs := by
  rw [List.cons_append, surface, h.surface_append, h.surface_succ, List.nil_append, surface, Nat.add_sub_cancel]

/-- The answers to balanced events are balanced. -/
theorem answers (h : Balanced es) (c : Context) : Balanced (c.answers es) := by
  induction h generalizing c with
  | nil => exact .nil
  | bind name _ ih => exact .bind _ (ih _)
  | refer name _ ih => exact .refer _ (ih _)
  | frame _ _ ihinner ih =>
      rw [Context.answers_append]
      exact .frame (ihinner _) (ih _)

end Balanced

end ScopeEvent

/-! ### Contexts after events -/

namespace Context

open ScopeEvent

variable {c c' : Context} {es : List ScopeEvent} {top : Frame} {frames : List Frame}

/-- An event is answered with one of its kind. -/
theorem length_surface_answers (c : Context) (es : List ScopeEvent) (depth : Nat) :
    (surface depth (c.answers es)).length = (surface depth es).length := by
  induction es generalizing c depth with
  | nil => rfl
  | cons event es ih =>
      cases event with
      | enter => exact ih _ _
      | exit => exact ih _ _
      | refer name => exact ih _ _
      | bind name =>
          rw [answers_cons, answer, surface, surface]
          split_ifs
          · rw [List.length_cons, List.length_cons, ih]
          · exact ih _ _

/-- Events in which frames open and close in pairs bind their surface names in the innermost frame. -/
theorem frames_after_eq (hes : Balanced es) (h : c.scopes.frames = top :: frames) :
    (c.after es).scopes.frames = top.bindAll (surface 0 es) (surface 0 (c.answers es)) :: frames := by
  induction hes generalizing c top with
  | nil => exact h
  | bind name _ ih =>
      rw [after_cons, ih (frames_step_bind h name), answers_cons, answer, surface, surface, if_pos rfl,
        if_pos rfl, Frame.bindAll_cons]
  | refer name _ ih =>
      rw [← c.scopes_step_refer name] at h
      rw [after_cons, ih h, answers_cons, answer, surface, surface]
  | @frame inner es hinner _ _ ih =>
      -- what is bound inside goes with the frame inside
      have henter : (c.step .enter).scopes.frames = {} :: c.scopes.frames := rfl
      obtain ⟨inside, hinside⟩ := frames_after hinner henter
      have hexit : (((c.step .enter).after inner).step .exit).scopes.frames = top :: frames := by
        rw [frames_step_exit, hinside, List.tail_cons, h]
      rw [answers_append, hinner.surface_frame, after_append, after_cons, after_cons, ih hexit]
      exact congrArg (fun names => top.bindAll _ names :: frames) (hinner.answers _).surface_frame.symm

/-- No name is forgotten that is taken, or that was not resolved. -/
structure Keeps (c c' : Context) : Prop where
  registry : ∀ name, c.registry.contains name → c'.registry.contains name
  unresolved : ∀ name ∈ c.unresolved, name ∈ c'.unresolved

/-- A context forgets nothing while nothing happens. -/
theorem Keeps.refl (c : Context) : c.Keeps c := ⟨fun _ h => h, fun _ h => h⟩

/-- What is forgotten neither at first nor later is not forgotten. -/
theorem Keeps.trans {c'' : Context} (h : c.Keeps c') (h' : c'.Keeps c'') : c.Keeps c'' where
  registry name hname := h'.registry name (h.registry name hname)
  unresolved name hname := h'.unresolved name (h.unresolved name hname)

/-- No event makes a context forget anything. -/
theorem keeps_step (c : Context) (event : ScopeEvent) : c.Keeps (c.step event) := by
  cases event with
  | enter => exact ⟨fun _ h => h, fun _ h => h⟩
  | exit => exact ⟨fun _ h => h, fun _ h => h⟩
  | bind name => exact ⟨fun other h => (Registry.contains_reserve _ _ other).2 (.inr h), fun _ h => h⟩
  | refer name =>
      rw [step]
      split
      · exact .refl c
      · exact ⟨fun _ h => h, fun other h => Std.TreeSet.mem_insert.2 (.inr h)⟩

/-- No row of events makes a context forget anything. -/
theorem keeps_after (c : Context) (es : List ScopeEvent) : c.Keeps (c.after es) := by
  induction es generalizing c with
  | nil => exact .refl c
  | cons event es ih => exact (c.keeps_step event).trans (ih (c.step event))

/-- There are as many frames as before, no block is to share one, and no name is forgotten. -/
structure Grows (c c' : Context) : Prop extends c.Keeps c' where
  depth_eq : c'.scopes.depth = c.scopes.depth
  sharesNext : c'.sharesNext = false

/-- Where a frame is open and none is to be shared, balanced events leave as many frames as there were. -/
theorem Ready.grows (h : c.Ready) (hes : Balanced es) : c.Grows (c.after es) := by
  obtain ⟨top, frames, hframes⟩ := List.exists_cons_of_ne_nil h.frames_ne_nil
  obtain ⟨top', hframes'⟩ := frames_after hes hframes
  refine ⟨c.keeps_after es, ?_, (c.sharesNext_after es).trans h.sharesNext⟩
  rw [Scopes.depth, Scopes.depth, hframes, hframes', List.length_cons, List.length_cons]

end Context

/-! ### Names of `let` statements -/

/-- The names that a statement binds in the frame in which it stands. -/
def Stmt.letNames : Stmt → List Name
  | .bind p _ _ _ => p.names
  | _ => []

/-- Only a `let` binds names in the frame in which it stands. -/
theorem Stmt.letNames_eq_nil {t : Stmt} (h : ∀ p mutable e s, t ≠ .bind p mutable e s) : t.letNames = [] := by
  unfold letNames
  split
  · exact absurd rfl (h _ _ _ _)
  · rfl

/-- The names that the statements of a block bind in its frame. -/
def Block.letNames (b : Block) : List Name := b.stmts.flatMap Stmt.letNames

section

open ScopeEvent

/-- A block binds nothing in the frame around it. -/
theorem Block.surface_events (b : Block) : surface 0 b.events = [] := by
  obtain ⟨stmts, s⟩ := b
  exact (Stmt.balanced_eventsList stmts).surface_frame

/-- Nor does a block that may be missing. -/
theorem Block.surface_eventsOption (b : Option Block) : surface 0 (Block.eventsOption b) = [] := by
  rcases b with _ | b
  · rfl
  · exact b.surface_events

/-- A pattern binds its names in the frame in which it stands. -/
theorem Pattern.surface_events (p : Pattern) : surface 0 p.events = p.names := surface_map_bind _

/-- An expression binds nothing in the frame in which it stands. -/
theorem Expr.surface_events (e : Expr) : surface 0 e.events = [] := surface_map_refer _

/-- The branches of a choice bind nothing in the frame around them. -/
theorem Branch.surface_eventsList (bs : List Branch) : surface 0 (Branch.eventsList bs) = [] := by
  induction bs with
  | nil => rfl
  | cons branch bs ih =>
      obtain ⟨cond, body⟩ := branch
      rw [Branch.eventsList, cond.balanced_events.surface_append, body.balanced_events.surface_append,
        cond.surface_events, body.surface_events, ih]
      rfl

/-- In its frame, a statement binds the names of its pattern if it is a `let`, and nothing otherwise. -/
theorem Stmt.surface_events (t : Stmt) : surface 0 t.events = t.letNames := by
  cases t with
  | bind p mutable e s =>
      rw [Stmt.events, e.balanced_events.surface_append, e.surface_events]
      exact p.surface_events
  | assign target value s =>
      rw [Stmt.events, target.balanced_events.surface_append, target.surface_events, value.surface_events]
      rfl
  | eval value s => exact value.surface_events
  | ret value s =>
      cases value with
      | none => rfl
      | some value => exact value.surface_events
  | choose branches otherwise s =>
      rw [Stmt.events, (Branch.balanced_eventsList branches).surface_append, Branch.surface_eventsList,
        Block.surface_eventsOption]
      rfl
  | loopWhile cond body s =>
      rw [Stmt.events, cond.balanced_events.surface_append, cond.surface_events, body.surface_events]
      rfl
  | loopFor p e body s =>
      rw [Stmt.events, e.balanced_events.surface_append, e.surface_events]
      exact (p.balanced_events.append body.balanced_events).surface_frame
  | loopUntil body cond fixup s =>
      exact (body.balanced_innerEvents.append
        (cond.balanced_events.append (Block.balanced_eventsOption fixup))).surface_frame
  | block body s => exact body.surface_events

/-- In their frame, statements bind the names of the `let`s among them. -/
theorem Stmt.surface_eventsList (ts : List Stmt) :
    surface 0 (Stmt.eventsList ts) = ts.flatMap Stmt.letNames := by
  induction ts with
  | nil => rfl
  | cons t ts ih =>
      rw [Stmt.eventsList, t.balanced_events.surface_append, t.surface_events, ih, List.flatMap_cons]

/-- A block that shares the frame around it binds the names of its own `let`s there. -/
theorem Block.surface_innerEvents (b : Block) : surface 0 b.innerEvents = b.letNames := by
  obtain ⟨stmts, s⟩ := b
  exact Stmt.surface_eventsList stmts

end

/-! ### Walks and frames -/

namespace Renaming

open ScopeEvent

variable {α : Type} {ev : α → List ScopeEvent} {blot : α → α} {walk : Renaming α} {c : Context} {t t' : α}
  {top : Frame} {frames : List Frame}

/-- A walk binds the surface names of the tree in the innermost frame to those of the tree that it returns. -/
theorem Replays.frames_eq (h : Replays ev blot walk c t t') (hbalanced : Balanced (ev t))
    (hframes : c.scopes.frames = top :: frames) :
    ∃ top', (c.after (ev t)).scopes.frames = top' :: frames ∧
      top.Rebinds (surface 0 (ev t)) (surface 0 (ev t')) top' := by
  refine ⟨_, Context.frames_after_eq hbalanced hframes, ?_⟩
  rw [h.events_eq]
  exact top.rebinds_bindAll (c.length_surface_answers (ev t) 0)

/-- A walk over a tree without surface names leaves the frames as they were. -/
theorem Replays.leaves (h : Replays ev blot walk c t t') (hready : c.Ready) (hbalanced : Balanced (ev t))
    (hsurface : surface 0 (ev t) = []) :
    ∃ c', Yields walk c t' c' ∧ c'.scopes = c.scopes ∧ c.Grows c' := by
  obtain ⟨top, frames, hframes⟩ := List.exists_cons_of_ne_nil hready.frames_ne_nil
  obtain ⟨top', hafter, hrebinds⟩ := h.frames_eq hbalanced hframes
  rw [hsurface] at hrebinds
  obtain rfl : top' = top := hrebinds.eq_bindAll
  exact ⟨_, h.yields, congrArg Scopes.mk (hafter.trans hframes.symm), hready.grows hbalanced⟩

/-- A walk over a tree with surface names binds them in the innermost frame. -/
theorem Replays.binds (h : Replays ev blot walk c t t') (hready : c.Ready) (hbalanced : Balanced (ev t))
    (hframes : c.scopes.frames = top :: frames) {names fresh : List Name}
    (hnames : surface 0 (ev t) = names) (hfresh : surface 0 (ev t') = fresh) :
    ∃ c', Yields walk c t' c' ∧
      (∃ top', c'.scopes.frames = top' :: frames ∧ top.Rebinds names fresh top') ∧ c.Grows c' := by
  have hbound := h.frames_eq hbalanced hframes
  rw [hnames, hfresh] at hbound
  exact ⟨_, h.yields, hbound, hready.grows hbalanced⟩

/-- **What a walk does to frames.**  From a context with a frame and without a block that is to share one, a
walk over an expression, a block, or a statement other than a `let` succeeds and leaves the frames as they were.
A walk over a pattern or a `let` succeeds and binds the names of the pattern in the innermost frame; so does a
walk over a block that is to share the innermost frame, with the names of the `let` statements that stand in the
block itself.  After each there are as many frames as before, no block is to share one, and no name is forgotten
that is taken or was not resolved. -/
theorem rebuild_frames (registry : Registry) (top : Frame) (frames : List Frame)
    (unresolved : Std.TreeSet Name) :
    let c : Context := ⟨registry, ⟨top :: frames⟩, false, unresolved⟩
    (∀ e : Expr, ∃ e' c', Yields (renamer.rebuildExpr e) c e' c' ∧ c'.scopes = c.scopes ∧ c.Grows c') ∧
    (∀ b : Block, ∃ b' c', Yields (renamer.rebuildBlock b) c b' c' ∧ c'.scopes = c.scopes ∧ c.Grows c') ∧
    (∀ t : Stmt, (∀ p mutable e s, t ≠ .bind p mutable e s) →
      ∃ t' c', Yields (renamer.rebuildStmt t) c t' c' ∧ c'.scopes = c.scopes ∧ c.Grows c') ∧
    (∀ p mutable e s, ∃ p' e' c',
      Yields (renamer.rebuildStmt (.bind p mutable e s)) c (.bind p' mutable e' s) c' ∧
      (∃ top', c'.scopes.frames = top' :: frames ∧ top.Rebinds p.names p'.names top') ∧ c.Grows c') ∧
    (∀ p : Pattern, ∃ p' c', Yields (renamer.rebuildPattern p) c p' c' ∧
      (∃ top', c'.scopes.frames = top' :: frames ∧ top.Rebinds p.names p'.names top') ∧ c.Grows c') ∧
    (∀ b : Block, ∃ b' c', Yields (renamer.rebuildBlock b) { c with sharesNext := true } b' c' ∧
      (∃ top', c'.scopes.frames = top' :: frames ∧ top.Rebinds b.letNames b'.letNames top') ∧ c.Grows c') := by
  intro c
  have hframes : c.scopes.frames = top :: frames := rfl
  have hready : c.Ready := ⟨List.cons_ne_nil top frames, rfl⟩
  refine ⟨fun e => ?_, fun b => ?_, fun t ht => ?_, fun p mutable e s => ?_, fun p => ?_, fun b => ?_⟩
  · obtain ⟨e', h⟩ := replays_expr e (c := c)
    exact ⟨e', h.leaves hready e.balanced_events e.surface_events⟩
  · obtain ⟨b', h⟩ := replays_block b hready
    exact ⟨b', h.leaves hready b.balanced_events b.surface_events⟩
  · obtain ⟨t', h⟩ := replays_stmt t hready
    exact ⟨t', h.leaves hready t.balanced_events (t.surface_events.trans (Stmt.letNames_eq_nil ht))⟩
  · obtain ⟨e', p', h⟩ := replays_let p mutable e s hready
    exact ⟨p', e', h.binds hready (Stmt.balanced_events _) hframes (Stmt.surface_events _)
      (Stmt.surface_events _)⟩
  · obtain ⟨p', h⟩ := replays_pattern p hready
    exact ⟨p', h.binds hready p.balanced_events hframes p.surface_events p'.surface_events⟩
  · obtain ⟨b', h⟩ := replays_shared b hready
    exact ⟨b', h.binds hready b.balanced_innerEvents hframes b.surface_innerEvents b'.surface_innerEvents⟩

end Renaming

end Freshen
