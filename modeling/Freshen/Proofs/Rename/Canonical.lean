import Mathlib
import Freshen.Proofs.Rename.Binding
import Freshen.Proofs.Scope.Names

/-!
# What a renamed callable depends on

The names in a renamed callable are allocated from the free references and the bases of the bound names,
and from nothing else.  So callables that differ in names only, and not in what the names mean, are
renamed to one callable, and this one is renamed to itself.

- `Callable.Variant`: a callable under other names.
- `Callable.Variant.renamed_eq`, `Callable.Renamed.eq_self`: two runs of the renaming, on variants and
  one after the other.

**Key results.** `Callable.rename_allocates`: the bound names of a renamed callable, in order;
`Callable.rename_canonical`: variants are renamed to one callable, which renaming does not change.
-/

namespace Freshen

/-- Two references to one site, or two free references of one name. -/
def SameTarget : Name × Option Nat → Name × Option Nat → Prop
  | (_, some site), (_, some site') => site = site'
  | (name, none), (name', none) => name = name'
  | _, _ => False

/-- References to the same sites get the same names. -/
theorem relabelReference_eq_of_sameTargets {references references' : List (Name × Option Nat)}
    (h : List.Forall₂ SameTarget references references') (label : Nat → Name) :
    references.map (relabelReference label) = references'.map (relabelReference label) := by
  have hone : ∀ {r r' : Name × Option Nat}, SameTarget r r' →
      relabelReference label r = relabelReference label r'
    | (_, some _), (_, some _), rfl => rfl
    | (_, none), (_, none), rfl => rfl
  induction h with
  | nil => rfl
  | cons hfirst _ ih => rw [List.map_cons, List.map_cons, hone hfirst, ih]

/-- Names given once are replaced when names are given again. -/
theorem relabelReference_relabelReference (label label' : Nat → Name) (r : Name × Option Nat) :
    relabelReference label (relabelReference label' r) = relabelReference label r := by
  obtain ⟨name, _ | site⟩ := r <;> rfl

namespace Callable

/-- One callable under the names of another: the same shape, references to the same sites, free
references of the same names, and at each site a name of the same base. -/
structure Variant (c d : Callable) : Prop where
  shape_eq : c.withoutLocals = d.withoutLocals
  sameTargets : List.Forall₂ SameTarget c.references d.references
  bases_eq : c.bindingNames.map Name.base = d.bindingNames.map Name.base

/-- `fn f(first) { let second = g(first); }`, in which `g` is free. -/
def twoBindings (first second : Name) : Callable where
  name := "f"
  params := .binder ⟨first, none, .nowhere⟩
  body := ⟨[.bind (.binder ⟨second, none, .nowhere⟩) false
    (.call (.ref (.unqualified "g") none .nowhere) [.ref (.unqualified first) none .nowhere] .nowhere)
    .nowhere], .nowhere⟩
  span := .nowhere

/-! ### The names that bindings get -/

/-- **Names are allocated as documented.**  The names bound in a renamed callable, in order, are those that
an allocation hands out for the names bound before, where at first the free references are taken: for each
name the form of its base with the least counter that is not taken, which is taken from then on.  A name
that is not empty keeps its base, up to the number of names that counters can tell apart. -/
theorem rename_allocates (c : Callable) :
    ∃ c', c.rename = .ok c' ∧
      (∀ fresh, Allocates c.freeLocals c.bindingNames fresh ↔ fresh = c'.bindingNames) ∧
      ∀ (i : Nat) (name : Name), c.bindingNames[i]? = some name → name ≠ "" →
        c.freeLocals.length + i < TaggedName.counterLimit →
        ∃ new, c'.bindingNames[i]? = some new ∧ new.base = name.base := by
  obtain ⟨c', hrename, hc⟩ := c.rename_eq
  have hallocates := hc.allocates
  rw [← c.bindingNames_eq_sites, ← c'.bindingNames_eq_sites] at hallocates
  refine ⟨c', hrename, fun fresh => ?_, fun i name hi hname hcount => ?_⟩
  · constructor
    · exact fun h => h.eq_of_bases hallocates rfl
    · rintro rfl
      exact hallocates
  · exact hallocates.base_getElem? hi hname hcount

/-- A tagged name for the second binding. -/
theorem rename_allocates_tagged :
    ∃ c', (twoBindings "x" "__var7__x__").rename = .ok c' ∧
      ∃ new, c'.bindingNames[1]? = some new ∧ new.base = "x" := by
  obtain ⟨c', hrename, -, hbases⟩ := (twoBindings "x" "__var7__x__").rename_allocates
  obtain ⟨new, hnew, hbase⟩ :=
    hbases 1 "__var7__x__" (by decide +kernel) (by decide) (by decide +kernel)
  have hname : Name.base "__var7__x__" = "x" := by decide +kernel
  exact ⟨c', hrename, new, hnew, hbase.trans hname⟩

/-- The second binding of a base gets the first counter. -/
example : (twoBindings "x" "__var7__x__").rename.map bindingNames = .ok ["x", "__var1__x__"] := by
  decide +kernel

/-! ### Two runs -/

/-- Variants have the same free references. -/
theorem Variant.freeLocals_eq {c d : Callable} (h : c.Variant d) : c.freeLocals = d.freeLocals := by
  refine freeLocals_congr fun name => ?_
  have hmap := relabelReference_eq_of_sameTargets h.sameTargets fun _ => ""
  rw [← mem_map_relabelReference, hmap, mem_map_relabelReference]

/-- Variants are renamed to one callable. -/
theorem Variant.renamed_eq {c d c' d' : Callable} (h : c.Variant d) (hc : c.Renamed c')
    (hd : d.Renamed d') : c' = d' := by
  have hbases : c.sites.map Name.base = d.sites.map Name.base := by
    rw [← c.bindingNames_eq_sites, ← d.bindingNames_eq_sites, h.bases_eq]
  have hsites : c'.sites = d'.sites :=
    hc.allocates.eq_of_bases (h.freeLocals_eq ▸ hd.allocates) hbases
  have hreferences : c'.references = d'.references := by
    rw [hc.references_eq, hd.references_eq, hsites, relabelReference_eq_of_sameTargets h.sameTargets]
  refine eq_of_names ?_ hsites (congrArg _ hreferences)
  rw [hc.withoutLocals_eq, hd.withoutLocals_eq, h.shape_eq]

/-- A renamed callable is renamed to itself: it asks for the names that were handed out. -/
theorem Renamed.eq_self {c c' c'' : Callable} (h : c.Renamed c') (h' : c'.Renamed c'') : c'' = c' := by
  have hsites : c''.sites = c'.sites :=
    h'.allocates.eq_of_bases (h.freeLocals_eq ▸ h.allocates.again) rfl
  have hreferences : c''.references = c'.references := by
    rw [h'.references_eq, hsites, h.references_eq, List.map_map]
    exact List.map_congr_left fun r _ => relabelReference_relabelReference _ _ r
  exact eq_of_names h'.withoutLocals_eq hsites (congrArg _ hreferences)

/-- **A renamed callable is a canonical form.**  Callables that are the same but for their local names, whose
references refer to the same sites, or are free with the same names, and whose bound names have the same
bases, are renamed to one callable, spans included.  And renaming does not change a renamed callable. -/
theorem rename_canonical :
    (∀ c d : Callable, c.Variant d → ∃ c', c.rename = .ok c' ∧ d.rename = .ok c') ∧
      ∀ c : Callable, ∃ c', c.rename = .ok c' ∧ c'.rename = .ok c' := by
  constructor
  · intro c d h
    obtain ⟨c', hc, hrenamed⟩ := c.rename_eq
    obtain ⟨d', hd, hrenamed'⟩ := d.rename_eq
    obtain rfl := h.renamed_eq hrenamed hrenamed'
    exact ⟨c', hc, hd⟩
  · intro c
    obtain ⟨c', hc, hrenamed⟩ := c.rename_eq
    obtain ⟨c'', hc', hrenamed'⟩ := c'.rename_eq
    obtain rfl := hrenamed.eq_self hrenamed'
    exact ⟨c'', hc, hc'⟩

/-- A callable under names without and with tags. -/
theorem rename_canonical_tagged :
    (twoBindings "x" "x").Variant (twoBindings "__var1__x__" "__var7__x__") ∧
      ∃ c', (twoBindings "x" "x").rename = .ok c' ∧
        (twoBindings "__var1__x__" "__var7__x__").rename = .ok c' := by
  have hplain : (twoBindings "x" "x").references = [("g", none), ("x", some 0)] := by decide +kernel
  have htagged : (twoBindings "__var1__x__" "__var7__x__").references =
      [("g", none), ("__var1__x__", some 0)] := by decide +kernel
  have hvariant : (twoBindings "x" "x").Variant (twoBindings "__var1__x__" "__var7__x__") :=
    { shape_eq := rfl
      sameTargets := by
        rw [hplain, htagged]
        exact .cons rfl (.cons rfl .nil)
      bases_eq := by decide +kernel }
  exact ⟨hvariant, rename_canonical.1 _ _ hvariant⟩

end Callable

end Freshen
