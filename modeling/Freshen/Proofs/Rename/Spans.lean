import Mathlib
import Freshen.Proofs.Rename.Isolation
import Freshen.Proofs.Rename.Scan
import Freshen.Proofs.Scope.Names
import Freshen.Proofs.Tree.Spans

/-!
# Renaming and spans

Where the parts of a tree stand has no part in how its locals are renamed.

- `events_mapSpans`, `withoutLocals_mapSpans` of each kind of tree: its events do not depend on spans, and
  local names and spans can be changed in any order.

**Key results.** `Callable.rename_mapSpans`, `Program.rename_mapSpans`: renaming commutes with a change of
spans.
-/

namespace Freshen

variable (f : Span → Span)

/-! ### Binding sites -/

mutual

/-- The names of a pattern do not depend on spans. -/
theorem Pattern.names_mapSpans : ∀ p : Pattern, (p.mapSpans f).names = p.names
  | .binder _ | .discard _ | .invalid _ => rfl
  | .tuple items _ => Pattern.namesList_mapSpans items

/-- Nor do those of the patterns of a list. -/
theorem Pattern.namesList_mapSpans : ∀ ps : List Pattern, namesList (mapSpansList f ps) = namesList ps
  | [] => rfl
  | p :: ps => congrArg₂ _ (Pattern.names_mapSpans p) (Pattern.namesList_mapSpans ps)

end

mutual

/-- The names of parameters do not depend on spans. -/
theorem Params.names_mapSpans : ∀ p : Params, (p.mapSpans f).names = p.names
  | .binder _ | .unnamed _ => rfl
  | .tuple items _ => Params.namesList_mapSpans items

/-- Nor do those of the items of a list of parameters. -/
theorem Params.namesList_mapSpans : ∀ ps : List Params, namesList (mapSpansList f ps) = namesList ps
  | [] => rfl
  | p :: ps => congrArg₂ _ (Params.names_mapSpans p) (Params.namesList_mapSpans ps)

end

mutual

/-- To erase local names of a pattern and to change its spans commute. -/
theorem Pattern.withoutLocals_mapSpans : ∀ p : Pattern,
    (p.mapSpans f).withoutLocals = p.withoutLocals.mapSpans f
  | .binder _ | .discard _ | .invalid _ => rfl
  | .tuple items _ => by
      simp only [mapSpans, withoutLocals, Pattern.withoutLocalsList_mapSpans items]

/-- So they do for the patterns of a list. -/
theorem Pattern.withoutLocalsList_mapSpans : ∀ ps : List Pattern,
    withoutLocalsList (mapSpansList f ps) = mapSpansList f (withoutLocalsList ps)
  | [] => rfl
  | p :: ps => congrArg₂ _ (Pattern.withoutLocals_mapSpans p) (Pattern.withoutLocalsList_mapSpans ps)

end

mutual

/-- To erase local names of parameters and to change their spans commute. -/
theorem Params.withoutLocals_mapSpans : ∀ p : Params,
    (p.mapSpans f).withoutLocals = p.withoutLocals.mapSpans f
  | .binder _ | .unnamed _ => rfl
  | .tuple items _ => by
      simp only [mapSpans, withoutLocals, Params.withoutLocalsList_mapSpans items]

/-- So they do for the items of a list of parameters. -/
theorem Params.withoutLocalsList_mapSpans : ∀ ps : List Params,
    withoutLocalsList (mapSpansList f ps) = mapSpansList f (withoutLocalsList ps)
  | [] => rfl
  | p :: ps => congrArg₂ _ (Params.withoutLocals_mapSpans p) (Params.withoutLocalsList_mapSpans ps)

end

/-! ### Expressions and statements -/

mutual

/-- The local names in an expression do not depend on spans. -/
theorem Expr.locals_mapSpans : ∀ e : Expr, (e.mapSpans f).locals = e.locals
  | .int _ _ | .bool _ _ | .str _ _ | .unit _ | .ref _ _ _ => rfl
  | .unary _ e _ => Expr.locals_mapSpans e
  | .binary _ l r _ => congrArg₂ _ (Expr.locals_mapSpans l) (Expr.locals_mapSpans r)
  | .call c args _ => congrArg₂ _ (Expr.locals_mapSpans c) (Expr.localsList_mapSpans args)
  | .index b i _ => congrArg₂ _ (Expr.locals_mapSpans b) (Expr.locals_mapSpans i)
  | .tuple items _ | .array items _ => Expr.localsList_mapSpans items

/-- Nor do those in the expressions of a list. -/
theorem Expr.localsList_mapSpans : ∀ es : List Expr, localsList (mapSpansList f es) = localsList es
  | [] => rfl
  | e :: es => congrArg₂ _ (Expr.locals_mapSpans e) (Expr.localsList_mapSpans es)

end

mutual

/-- To erase local names of an expression and to change its spans commute. -/
theorem Expr.withoutLocals_mapSpans : ∀ e : Expr,
    (e.mapSpans f).withoutLocals = e.withoutLocals.mapSpans f
  | .int _ _ | .bool _ _ | .str _ _ | .unit _ | .ref _ _ _ => rfl
  | .unary _ e _ => by simp only [mapSpans, withoutLocals, Expr.withoutLocals_mapSpans e]
  | .binary _ l r _ => by
      simp only [mapSpans, withoutLocals, Expr.withoutLocals_mapSpans l, Expr.withoutLocals_mapSpans r]
  | .call c args _ => by
      simp only [mapSpans, withoutLocals, Expr.withoutLocals_mapSpans c,
        Expr.withoutLocalsList_mapSpans args]
  | .index b i _ => by
      simp only [mapSpans, withoutLocals, Expr.withoutLocals_mapSpans b, Expr.withoutLocals_mapSpans i]
  | .tuple items _ | .array items _ => by
      simp only [mapSpans, withoutLocals, Expr.withoutLocalsList_mapSpans items]

/-- So they do for the expressions of a list. -/
theorem Expr.withoutLocalsList_mapSpans : ∀ es : List Expr,
    withoutLocalsList (mapSpansList f es) = mapSpansList f (withoutLocalsList es)
  | [] => rfl
  | e :: es => congrArg₂ _ (Expr.withoutLocals_mapSpans e) (Expr.withoutLocalsList_mapSpans es)

end

/-- The events of an expression do not depend on spans. -/
theorem Expr.events_mapSpans (e : Expr) : (e.mapSpans f).events = e.events := by
  rw [events, events, locals_mapSpans]

/-- The events of a pattern do not depend on spans. -/
theorem Pattern.events_mapSpans (p : Pattern) : (p.mapSpans f).events = p.events := by
  rw [events, events, names_mapSpans]

/-- The events of parameters do not depend on spans. -/
theorem Params.events_mapSpans (p : Params) : (p.mapSpans f).events = p.events := by
  rw [events, events, names_mapSpans]

mutual

/-- The events of a statement do not depend on spans. -/
theorem Stmt.events_mapSpans : ∀ t : Stmt, (t.mapSpans f).events = t.events
  | .bind p _ e _ => by simp only [Stmt.mapSpans, Stmt.events, p.events_mapSpans, e.events_mapSpans]
  | .assign t v _ => by simp only [Stmt.mapSpans, Stmt.events, t.events_mapSpans, v.events_mapSpans]
  | .eval v _ => v.events_mapSpans f
  | .ret none _ => rfl
  | .ret (some v) _ => v.events_mapSpans f
  | .choose bs b _ => congrArg₂ _ (Branch.eventsList_mapSpans bs) (Block.eventsOption_mapSpans b)
  | .loopWhile c b _ => congrArg₂ _ (c.events_mapSpans f) (Block.events_mapSpans b)
  | .loopFor p e b _ => by
      simp only [Stmt.mapSpans, Stmt.events, p.events_mapSpans, e.events_mapSpans,
        Block.events_mapSpans b]
  | .loopUntil b c x _ => by
      simp only [Stmt.mapSpans, Stmt.events, c.events_mapSpans, Block.innerEvents_mapSpans b,
        Block.eventsOption_mapSpans x]
  | .block b _ => Block.events_mapSpans b

/-- The events of a block do not depend on spans. -/
theorem Block.events_mapSpans : ∀ b : Block, (b.mapSpans f).events = b.events
  | ⟨stmts, _⟩ => by simp only [Block.mapSpans, Block.events, Stmt.eventsList_mapSpans stmts]

/-- The events inside a block do not depend on spans. -/
theorem Block.innerEvents_mapSpans : ∀ b : Block, (b.mapSpans f).innerEvents = b.innerEvents
  | ⟨stmts, _⟩ => Stmt.eventsList_mapSpans stmts

/-- The events of a block that may be missing do not depend on spans. -/
theorem Block.eventsOption_mapSpans : ∀ b : Option Block,
    Block.eventsOption (Block.mapSpansOption f b) = Block.eventsOption b
  | none => rfl
  | some b => Block.events_mapSpans b

/-- The events of statements do not depend on spans. -/
theorem Stmt.eventsList_mapSpans : ∀ ts : List Stmt,
    Stmt.eventsList (Stmt.mapSpansList f ts) = Stmt.eventsList ts
  | [] => rfl
  | t :: ts => congrArg₂ _ (Stmt.events_mapSpans t) (Stmt.eventsList_mapSpans ts)

/-- The events of the branches of a choice do not depend on spans. -/
theorem Branch.eventsList_mapSpans : ∀ bs : List Branch,
    Branch.eventsList (Branch.mapSpansList f bs) = Branch.eventsList bs
  | [] => rfl
  | ⟨c, b⟩ :: bs => by
      simp only [Branch.mapSpansList, Branch.eventsList, c.events_mapSpans, Block.events_mapSpans b,
        Branch.eventsList_mapSpans bs]

end

mutual

/-- To erase local names of a statement and to change its spans commute. -/
theorem Stmt.withoutLocals_mapSpans : ∀ t : Stmt,
    (t.mapSpans f).withoutLocals = t.withoutLocals.mapSpans f
  | .bind p _ e _ => by
      simp only [Stmt.mapSpans, Stmt.withoutLocals, p.withoutLocals_mapSpans, e.withoutLocals_mapSpans]
  | .assign t v _ => by
      simp only [Stmt.mapSpans, Stmt.withoutLocals, t.withoutLocals_mapSpans, v.withoutLocals_mapSpans]
  | .eval v _ => by simp only [Stmt.mapSpans, Stmt.withoutLocals, v.withoutLocals_mapSpans]
  | .ret none _ => rfl
  | .ret (some v) _ => by
      simp only [Stmt.mapSpans, Stmt.withoutLocals, Option.map_some, v.withoutLocals_mapSpans]
  | .choose bs b _ => by
      simp only [Stmt.mapSpans, Stmt.withoutLocals, Branch.withoutLocalsList_mapSpans bs,
        Block.withoutLocalsOption_mapSpans b]
  | .loopWhile c b _ => by
      simp only [Stmt.mapSpans, Stmt.withoutLocals, c.withoutLocals_mapSpans,
        Block.withoutLocals_mapSpans b]
  | .loopFor p e b _ => by
      simp only [Stmt.mapSpans, Stmt.withoutLocals, p.withoutLocals_mapSpans, e.withoutLocals_mapSpans,
        Block.withoutLocals_mapSpans b]
  | .loopUntil b c x _ => by
      simp only [Stmt.mapSpans, Stmt.withoutLocals, c.withoutLocals_mapSpans,
        Block.withoutLocals_mapSpans b, Block.withoutLocalsOption_mapSpans x]
  | .block b _ => by simp only [Stmt.mapSpans, Stmt.withoutLocals, Block.withoutLocals_mapSpans b]

/-- To erase local names of a block and to change its spans commute. -/
theorem Block.withoutLocals_mapSpans : ∀ b : Block,
    (b.mapSpans f).withoutLocals = b.withoutLocals.mapSpans f
  | ⟨stmts, _⟩ => by
      simp only [Block.mapSpans, Block.withoutLocals, Stmt.withoutLocalsList_mapSpans stmts]

/-- So they do for a block that may be missing. -/
theorem Block.withoutLocalsOption_mapSpans : ∀ b : Option Block,
    Block.withoutLocalsOption (Block.mapSpansOption f b) =
      Block.mapSpansOption f (Block.withoutLocalsOption b)
  | none => rfl
  | some b => congrArg some (Block.withoutLocals_mapSpans b)

/-- So they do for the statements of a list. -/
theorem Stmt.withoutLocalsList_mapSpans : ∀ ts : List Stmt,
    Stmt.withoutLocalsList (Stmt.mapSpansList f ts) = Stmt.mapSpansList f (Stmt.withoutLocalsList ts)
  | [] => rfl
  | t :: ts => congrArg₂ _ (Stmt.withoutLocals_mapSpans t) (Stmt.withoutLocalsList_mapSpans ts)

/-- So they do for the branches of a choice. -/
theorem Branch.withoutLocalsList_mapSpans : ∀ bs : List Branch,
    Branch.withoutLocalsList (Branch.mapSpansList f bs) =
      Branch.mapSpansList f (Branch.withoutLocalsList bs)
  | [] => rfl
  | ⟨c, b⟩ :: bs => by
      simp only [Branch.mapSpansList, Branch.withoutLocalsList, c.withoutLocals_mapSpans,
        Block.withoutLocals_mapSpans b, Branch.withoutLocalsList_mapSpans bs]

end

/-! ### Callables and programs -/

namespace Callable

/-- The events of a callable do not depend on spans. -/
theorem events_mapSpans (c : Callable) : (c.mapSpans f).events = c.events :=
  congrArg₂ _ (c.params.events_mapSpans f) (c.body.events_mapSpans f)

/-- To erase local names of a callable and to change its spans commute. -/
theorem withoutLocals_mapSpans (c : Callable) :
    (c.mapSpans f).withoutLocals = c.withoutLocals.mapSpans f := by
  simp only [mapSpans, withoutLocals, c.params.withoutLocals_mapSpans, c.body.withoutLocals_mapSpans]

/-- Which local names are free in a callable does not depend on spans. -/
theorem freeLocals_mapSpans (c : Callable) : (c.mapSpans f).freeLocals = c.freeLocals :=
  freeLocals_congr fun _ => by rw [references, references, events_mapSpans]

/-- Renaming commutes with a change of spans. -/
theorem rename_mapSpans {c c' : Callable} (h : c.rename = .ok c') :
    (c.mapSpans f).rename = .ok (c'.mapSpans f) := by
  obtain ⟨renamed, hrename, hc⟩ := c.rename_eq
  obtain rfl : renamed = c' := Except.ok.inj (hrename.symm.trans h)
  obtain ⟨changed, hchanged, hd⟩ := (c.mapSpans f).rename_eq
  have hevents : changed.events = (renamed.mapSpans f).events := by
    rw [hd.events_eq, events_mapSpans, events_mapSpans, freeLocals_mapSpans, hc.events_eq]
  have hshape : changed.withoutLocals = (renamed.mapSpans f).withoutLocals := by
    rw [hd.withoutLocals_eq, withoutLocals_mapSpans, withoutLocals_mapSpans, hc.withoutLocals_eq]
  have heq : changed = renamed.mapSpans f := by
    apply Callable.eq_of_names hshape
    · rw [sites, sites, hevents]
    · rw [references, references, hevents]
  rw [hchanged, heq]

end Callable

/-- Renaming a program commutes with a change of spans. -/
theorem Program.rename_mapSpans {p p' : Program} (h : p.rename = .ok p') :
    (p.mapSpans f).rename = .ok (p'.mapSpans f) := by
  rw [rename_eq_ok_iff] at h ⊢
  refine List.forall₂_map_left_iff.2 (List.forall₂_map_right_iff.2 (h.imp fun c c' hc => ?_))
  exact Callable.rename_mapSpans f hc

end Freshen
