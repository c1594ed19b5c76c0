import Mathlib
import Freshen.Proofs.Rename.Replay
import Freshen.Proofs.Scope.Names

/-!
# What renaming leaves alone

Renaming a callable starts by forgetting the context that it is given, so nothing of what was renamed
before has a say in it, and every frame that it opens it closes, so it does not fail. Of the callable
it changes the local names only.

- `Callable.renameOn_eq_fresh`: a used context is as good as a fresh one.
- `Callable.renameAllOn_eq_mapM`: renaming one after the other is renaming each apart.
- `Program.exists_rename`: a program can be renamed in either way.

**Key results.** `Callable.rename_isolated`: renaming succeeds on every context, with the answer and the
context that it gives on a fresh one, and a program is renamed callable by callable;
`Callable.rename_withoutLocals`: the renamed callable is the callable under other local names.
-/

namespace Freshen

namespace Callable

/-! ### Contexts -/

/-- What a context holds before a callable is renamed is forgotten. -/
theorem renameOn_eq_fresh (c : Callable) (context : Context) :
    c.renameOn context = c.renameOn .fresh := rfl

/-- Renaming callables one after the other, from whatever context, is renaming each of them on a context
of its own. -/
theorem renameAllOn_eq_mapM (cs : List Callable) (context : Context) :
    renameAllOn cs context = cs.mapM rename := by
  induction cs generalizing context with
  | nil => rfl
  | cons c cs ih =>
      obtain ⟨c', hrename, -⟩ := c.renames context
      have hfresh : c.rename = .ok c' := by
        rw [rename, ← c.renameOn_eq_fresh context, hrename]
      rw [renameAllOn, hrename, List.mapM_cons, hfresh]
      simp only [ih]
      cases cs.mapM rename <;> rfl

/-- Callables that can be renamed one by one can be renamed together. -/
theorem exists_mapM_rename (cs : List Callable) :
    ∃ cs', cs.mapM rename = .ok cs' ∧ List.Forall₂ (fun c c' => c.rename = .ok c') cs cs' := by
  induction cs with
  | nil => exact ⟨[], rfl, .nil⟩
  | cons c cs ih =>
      obtain ⟨c', hrename, -⟩ := c.rename_eq
      obtain ⟨cs', hrenames, hcs⟩ := ih
      refine ⟨c' :: cs', ?_, .cons hrename hcs⟩
      rw [List.mapM_cons, hrename, hrenames]
      rfl

end Callable

/-- A program is renamed callable by callable, on one context or on many. -/
theorem Program.exists_rename (p : Program) :
    ∃ p', p.rename = .ok p' ∧ p.renameApart = .ok p' ∧
      List.Forall₂ (fun c c' => c.rename = .ok c') p.callables p'.callables := by
  obtain ⟨cs', hrename, hcs⟩ := Callable.exists_mapM_rename p.callables
  refine ⟨⟨cs'⟩, ?_, ?_, hcs⟩
  · rw [rename, Callable.renameAllOn_eq_mapM, hrename]
    rfl
  · rw [renameApart, hrename]
    rfl

/-- A renamed program holds the renamed callables, one for one. -/
theorem Program.rename_eq_ok_iff {p p' : Program} : p.rename = .ok p' ↔
    List.Forall₂ (fun c c' => c.rename = .ok c') p.callables p'.callables := by
  obtain ⟨renamed, hrename, -, hcallables⟩ := p.exists_rename
  rw [hrename, Except.ok.injEq]
  constructor
  · rintro rfl
    exact hcallables
  · intro h
    have hunique : Relator.RightUnique fun c c' : Callable => c.rename = .ok c' :=
      fun _ _ _ h₁ h₂ => Except.ok.inj (h₁.symm.trans h₂)
    exact congrArg Program.mk (List.right_unique_forall₂' hunique hcallables h)

namespace Callable

/-- **Renaming carries nothing over and cannot fail.**  On every context, whatever its registry, its frames,
its share flag and its unresolved names are, a callable is renamed, and the renamed callable and the context
after it are those that a fresh context gives.  So a program, whose callables are renamed one after the other,
is renamed callable by callable, and renaming each apart gives the same. -/
theorem rename_isolated :
    (∀ (c : Callable) (context : Context),
      ∃ c', c.renameOn context = (.ok c', (c.renameOn .fresh).2) ∧ c.rename = .ok c') ∧
    ∀ p : Program, ∃ p', p.rename = .ok p' ∧ p.renameApart = .ok p' ∧
      List.Forall₂ (fun c c' => c.rename = .ok c') p.callables p'.callables := by
  refine ⟨fun c context => ?_, Program.exists_rename⟩
  obtain ⟨c', hrename, -⟩ := c.renames .fresh
  refine ⟨c', ?_, ?_⟩
  · rw [c.renameOn_eq_fresh context, hrename]
  · rw [rename, hrename]

/-! ### The tree -/

/-- **Renaming touches nothing but local names.**  Without the names at its binding sites and local references
the renamed callable is the callable, spans included.  Nothing else is left out of the comparison: a callable
that agrees with the renamed one in this, and in these names, is the renamed one. -/
theorem rename_withoutLocals (c : Callable) :
    ∃ c', c.rename = .ok c' ∧ c'.withoutLocals = c.withoutLocals ∧
      ∀ d : Callable, d.withoutLocals = c.withoutLocals → d.sites = c'.sites →
        d.references.map Prod.fst = c'.references.map Prod.fst → d = c' := by
  obtain ⟨c', hrename, hc⟩ := c.rename_eq
  refine ⟨c', hrename, hc.withoutLocals_eq, fun d hshape hsites hreferences => ?_⟩
  exact eq_of_names (hshape.trans hc.withoutLocals_eq.symm) hsites hreferences

end Callable

end Freshen
