import Mathlib
import Freshen.Proofs.Rename.Binding

/-!
# The scan for free references and the renaming

Both walk over a callable with frames of their own: the scan keeps the names that are bound in a frame,
the renaming what they are replaced by. Event by event, frame by frame, they bind the same names, so they
find the same references free.

- `FreeScan.Lockstep`: the scan and the renaming stand at the same point.
- `FreeScan.Lockstep.after`: a row of events keeps the two together.

**Key results.** `Callable.unresolved_eq_freeLocals`: the names that renaming does not resolve are the free
references, and these are the free references of the renamed callable.
-/

namespace Freshen

/-! ### Two walks side by side -/

namespace FreeScan

/-- The scan and the renaming stand at the same point: frame by frame they bind the same names, and they
found the same references free. -/
structure Lockstep (s : FreeScan) (c : Context) : Prop where
  frames : List.Forall₂ (fun bound (frame : Frame) => ∀ name, bound.contains name = frame.contains name)
    s.frames c.scopes.frames
  free_eq : s.free = c.unresolved

/-- The scan and the renaming start at the same point, whatever names are reserved. -/
theorem lockstep_start (reserved : List Name) : start.Lockstep (Context.start reserved) where
  frames := .cons (by simp) .nil
  free_eq := rfl

namespace Lockstep

variable {s : FreeScan} {c : Context}

/-- A name is bound in some frame of the scan iff the renaming has a replacement for it. -/
theorem any_contains (h : s.Lockstep c) (name : Name) :
    s.frames.any (·.contains name) = (c.scopes.lookup name).isSome := by
  obtain ⟨frames, sharesNext, free⟩ := s
  obtain ⟨registry, ⟨replacements⟩, sharesNext', unresolved⟩ := c
  have hframes := h.frames
  change List.Forall₂ _ frames replacements at hframes
  unfold Scopes.lookup
  clear h
  induction hframes with
  | nil => rfl
  | @cons bound frame _ _ htop _ ih =>
      rw [List.any_cons, List.findSome?_cons, htop name, ih, Std.TreeMap.contains_eq_isSome_getElem?]
      cases frame[name]? <;> rfl

/-- A reference is free for both walks or for none of them. -/
theorem refer (h : s.Lockstep c) (name : Name) :
    (s.step (.refer name)).Lockstep (c.step (.refer name)) := by
  have hbound := h.any_contains name
  rw [FreeScan.step, FreeScan.refer, Context.step]
  cases hlookup : c.scopes.lookup name with
  | none =>
      rw [hlookup, Option.isSome_none] at hbound
      rw [if_neg (ne_true_of_eq_false hbound)]
      exact ⟨h.frames, by rw [h.free_eq]⟩
  | some replacement =>
      rw [hlookup, Option.isSome_some] at hbound
      rw [if_pos hbound]
      exact h

/-- An event keeps the two walks together. -/
theorem step (h : s.Lockstep c) (e : ScopeEvent) : (s.step e).Lockstep (c.step e) := by
  cases e with
  | refer name => exact h.refer name
  | enter => exact ⟨.cons (by simp) h.frames, h.free_eq⟩
  | exit =>
      obtain ⟨frames, sharesNext, free⟩ := s
      obtain ⟨registry, ⟨replacements⟩, sharesNext', unresolved⟩ := c
      obtain ⟨hframes, rfl⟩ := h
      cases hframes with
      | nil => exact ⟨.nil, rfl⟩
      | cons _ hframes => exact ⟨hframes, rfl⟩
  | bind name =>
      obtain ⟨frames, sharesNext, free⟩ := s
      obtain ⟨registry, ⟨replacements⟩, sharesNext', unresolved⟩ := c
      obtain ⟨hframes, rfl⟩ := h
      cases hframes with
      | nil => exact ⟨.nil, rfl⟩
      | cons htop hframes =>
          refine ⟨.cons (fun other => ?_) hframes, rfl⟩
          rw [Std.TreeSet.contains_insert, Std.TreeMap.contains_insert, htop other]

/-- A row of events keeps the two walks together. -/
theorem after (h : s.Lockstep c) (es : List ScopeEvent) :
    (es.foldl FreeScan.step s).Lockstep (c.after es) := by
  induction es generalizing s c with
  | nil => exact h
  | cons e es ih => exact ih (h.step e)

end Lockstep

end FreeScan

/-- **The scan and the renaming find the same references free.**  Whatever context a callable is renamed
on, the names that are not resolved are the free references that the scan found before, and the renamed
callable has the same free references.  They are sorted and without repeats. -/
theorem Callable.unresolved_eq_freeLocals (c : Callable) (context : Context) :
    (c.renameOn context).2.unresolvedNames = c.freeLocals ∧ c.freeLocals.Pairwise (· < ·) ∧
      ∃ c', (c.renameOn context).1 = .ok c' ∧ c'.freeLocals = c.freeLocals := by
  obtain ⟨c', hrename, hc⟩ := c.renames context
  have hscan := FreeScan.observer_follows.callable_events c (s := FreeScan.start) rfl
  have hlockstep := (FreeScan.lockstep_start c.freeLocals).after c.events
  refine ⟨?_, c.freeLocals_sorted, c', by rw [hrename], hc.freeLocals_eq⟩
  rw [hrename, Context.unresolvedNames, ← hlockstep.free_eq]
  conv_rhs => rw [freeLocals, hscan]

end Freshen
