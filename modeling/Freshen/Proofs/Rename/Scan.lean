import Mathlib
import Freshen.Proofs.Traversal.Follow
import Freshen.Rename.Bindings
import Freshen.Rename.Free

/-!
# What the scans of a callable find

Two reading walks prepare and check a renaming: one finds free references, one lists bound names.
Both follow scope events.

**Key results.** `Callable.mem_freeLocals`: the names that the scan for free references finds are
those of the references to no binding site; `Callable.freeLocals_congr`: these make up the list that
it gives; `Callable.bindingNames_eq_sites`: the names that are listed are those at the binding sites.
-/

namespace Freshen

/-! ### The list of bound names -/

/-- The names listed after an event. -/
def collect (names : Array Name) : ScopeEvent → Array Name
  | .bind name => names.push name
  | _ => names

/-- Collecting over events adds the names that they bind, in order. -/
theorem toList_foldl_collect (es : List ScopeEvent) (names : Array Name) :
    (es.foldl collect names).toList = names.toList ++ ScopeEvent.boundNames es := by
  induction es generalizing names with
  | nil => simp
  | cons e es ih => cases e <;> simp [collect, ih]

/-- The walk that collects binding names follows the events. -/
theorem bindingCollector_follows : bindingCollector.Follows collect id fun _ => True where
  ready _ _ := trivial
  callable h := h
  params {p _ _ _} h := by cases p <;> exact h
  pattern {p _ _ _} h := by cases p <;> exact h
  expr {e _ _ _} h := by
    rcases e with _ | _ | _ | _ | ⟨_ | _, _, _⟩ | _ | _ | _ | _ | _ | _ <;> exact h
  block _ h := h
  shared _ h := h
  stmt _ h := h
  loopFor hsource hpattern hbody := hsource.seq (hpattern.seq hbody)
  loopUntil h := h

/-- The names that are listed are those at the binding sites. -/
theorem Callable.bindingNames_eq_sites (c : Callable) : c.bindingNames = c.sites := by
  have hwalk := bindingCollector_follows.callable_events c (s := #[]) trivial
  rw [bindingNames, hwalk, toList_foldl_collect]
  rfl

/-! ### The free references -/

namespace FreeScan

/-- The scan after an event. -/
def step (s : FreeScan) : ScopeEvent → FreeScan
  | .enter => s.enter
  | .exit => s.exit
  | .bind name => s.bind name
  | .refer name => s.refer name

/-- No event asks the scan to share a frame. -/
theorem sharesNext_step (s : FreeScan) (e : ScopeEvent) : (s.step e).sharesNext = s.sharesNext := by
  cases e with
  | enter => rfl
  | exit => rfl
  | bind name =>
      rw [step, bind]
      split <;> rfl
  | refer name =>
      rw [step, refer]
      split <;> rfl

/-- A walk inside a frame does what the events between an entry and an exit do. -/
theorem reaches_inFrame {walk : StateM FreeScan Unit} {s s' : FreeScan}
    (h : Reaches walk (s.step .enter) s') : Reaches (inFrame walk) s (s'.step .exit) :=
  (reaches_modify enter s).seq (h.seq (reaches_modify exit s'))

/-- The walk that looks for free references follows the events. -/
theorem observer_follows :
    observer.Follows step (fun s => { s with sharesNext := true }) fun s => s.sharesNext = false where
  ready hs e := (sharesNext_step _ e).trans hs
  callable h := h
  params {p _ _ _} h := by cases p <;> exact h
  pattern {p _ _ _} h := by cases p <;> exact h
  expr {e _ _ _} h := by
    rcases e with _ | _ | _ | _ | ⟨_ | _, _, _⟩ | _ | _ | _ | _ | _ | _ <;> exact h
  block {b walk s s'} hs h := by
    have hblock : (observer.block b walk).run s = (inFrame walk).run s := by
      simp [observer, hs]
    exact hblock.trans (reaches_inFrame h)
  shared {b walk s s'} hs h := by
    have hblock : (observer.block b walk).run { s with sharesNext := true } =
        walk.run { s with sharesNext := false } := by
      simp [observer]
    rw [← hs] at hblock
    exact hblock.trans h
  stmt {t _ _ _} ht h := by
    cases t with
    | loopUntil b c f span => exact absurd rfl (ht b c f span)
    | _ => exact h
  loopFor hsource hpattern hbody := hsource.seq (reaches_inFrame (hpattern.seq hbody))
  loopUntil h := reaches_inFrame ((reaches_modify _ _).seq h)

/-- Frame by frame, the names bound are those of the binding sites in view. -/
def Agrees (s : FreeScan) (sites : Sites) : Prop :=
  List.Forall₂ (fun bound frame => ∀ name, bound.contains name ↔ name ∈ frame.map Prod.fst)
    s.frames sites.frames

/-- After an event, the frames of the scan still bind the names of the sites in view. -/
theorem Agrees.step {s : FreeScan} {sites : Sites} (h : s.Agrees sites) (e : ScopeEvent) :
    (s.step e).Agrees (sites.step e) := by
  obtain ⟨frames, sharesNext, free⟩ := s
  obtain ⟨frames', next⟩ := sites
  cases e with
  | enter => exact .cons (by simp) h
  | exit => cases h with
    | nil => exact .nil
    | cons _ h => exact h
  | bind name => cases h with
    | nil => exact .nil
    | cons htop h =>
        refine .cons (fun other => ?_) h
        simp only [Std.TreeSet.contains_insert, Bool.or_eq_true, beq_iff_eq,
          Std.LawfulEqOrd.compare_eq_iff_eq, List.map_cons, List.mem_cons, htop other]
        exact or_congr_left eq_comm
  | refer name =>
      rw [FreeScan.step, refer]
      split <;> exact h

/-- A name is bound in some frame iff it refers to a site. -/
theorem Agrees.any_contains {s : FreeScan} {sites : Sites} (h : s.Agrees sites) (name : Name) :
    s.frames.any (·.contains name) = false ↔ sites.lookup name = none := by
  obtain ⟨frames, sharesNext, free⟩ := s
  obtain ⟨frames', next⟩ := sites
  rw [Sites.lookup_eq_none_iff]
  change List.Forall₂ _ frames frames' at h
  induction h with
  | nil => simp
  | @cons bound frame _ _ htop _ ih =>
      have hhead : bound.contains name = false ↔ ∀ site ∈ frame, site.1 ≠ name := by
        rw [← Bool.not_eq_true, htop name]
        simp only [List.mem_map, not_exists, not_and, ne_eq]
      simp only [List.any_cons, Bool.or_eq_false_iff, List.forall_mem_cons, hhead, ih]

/-- The names found are those found before and those of the references to no site. -/
theorem Agrees.contains_free {s : FreeScan} {sites : Sites} (h : s.Agrees sites)
    (es : List ScopeEvent) (name : Name) :
    (es.foldl FreeScan.step s).free.contains name ↔
      s.free.contains name ∨ (name, none) ∈ sites.references es := by
  induction es generalizing s sites with
  | nil => simp [Sites.references]
  | cons e es ih =>
      rw [List.foldl_cons, ih (h.step e)]
      cases e with
      | enter => rfl
      | exit => rfl
      | bind n =>
          rw [FreeScan.step, bind]
          split <;> rfl
      | refer n =>
          rw [FreeScan.step, refer, Sites.references, List.mem_cons, Prod.mk.injEq]
          split
          case isTrue hbound =>
            have hlookup := mt (h.any_contains n).2 (by simp [hbound])
            have hne : ¬(name = n ∧ none = sites.lookup n) := fun heq => hlookup heq.2.symm
            rw [or_iff_right hne]
            rfl
          case isFalse hfree =>
            have hlookup := (h.any_contains n).1 (Bool.eq_false_iff.2 hfree)
            simp only [Std.TreeSet.contains_insert, Bool.or_eq_true, beq_iff_eq,
              Std.LawfulEqOrd.compare_eq_iff_eq, hlookup, and_true, eq_comm (a := n)]
            tauto

end FreeScan

namespace Callable

/-- The free references that are found are the names of the references to no binding site. -/
theorem mem_freeLocals {c : Callable} {name : Name} :
    name ∈ c.freeLocals ↔ (name, none) ∈ c.references := by
  have hwalk := FreeScan.observer_follows.callable_events c (s := FreeScan.start) rfl
  have hagrees : FreeScan.start.Agrees Sites.root := .cons (by simp) .nil
  have hcontains := hagrees.contains_free c.events name
  rw [freeLocals, hwalk, Std.TreeSet.mem_toList, ← Std.TreeSet.contains_iff_mem, hcontains]
  simp [FreeScan.start, references]

/-- Free references are sorted and without repeats. -/
theorem freeLocals_sorted (c : Callable) : c.freeLocals.Pairwise (· < ·) := by
  have hordered := Std.TreeSet.ordered_toList
    (t := ((FreeScan.observer.visitCallable c).run FreeScan.start).2.free)
  exact hordered.imp fun h => compareOfLessAndEq_eq_lt.1 h

/-- Callables with the same free references have the same list of them. -/
theorem freeLocals_congr {c d : Callable}
    (h : ∀ name, (name, none) ∈ c.references ↔ (name, none) ∈ d.references) :
    c.freeLocals = d.freeLocals := by
  refine c.freeLocals_sorted.eq_of_mem_iff d.freeLocals_sorted fun name => ?_
  rw [mem_freeLocals, mem_freeLocals, h name]

end Callable

end Freshen
