import Mathlib
import Freshen.Proofs.Naming.Allocation
import Freshen.Proofs.Rename.Duplicates
import Freshen.Proofs.Rename.Replay

/-!
# Renaming keeps bindings

A renamed callable has the binding structure of the callable that it comes from, and in it a name
alone says which variable is meant.

- `Context.Relabels`: the frames of a context map each name in view to the new name of its site.
- `Sites.references_answers`: how the answers to events refer to binding sites.

**Key results.** `Callable.rename_references`: every local reference of the renamed callable refers to
the site with the number it referred to before, or is free as before and keeps its name;
`Callable.rename_unambiguous`: no two sites of the renamed callable bear one name, no site bears the
name of a free reference, and a reference refers to a site iff the site bears its name.
-/

namespace Freshen

/-! ### The names that bindings get -/

/-- The names bound by the answers to events are those allocated for the names that the events
bind. -/
theorem Context.allocates_answers {es : List ScopeEvent} {c : Context} {taken : List Name}
    (h : c.registry.Holds taken) :
    Allocates taken (ScopeEvent.boundNames es) (ScopeEvent.boundNames (c.answers es)) := by
  induction es generalizing c taken with
  | nil => exact .nil
  | cons e es ih =>
      rw [answers_cons]
      cases e with
      | enter => exact ih h
      | exit => exact ih h
      | refer name =>
          refine ih ?_
          rw [step]
          split <;> exact h
      | bind name =>
          refine .cons (fun j hj => ?_) ?_ (ih (h.reserve _))
          · exact (h _).1 (Registry.mem_tagged_of_lt_freeCounter hj)
          · rw [← h, Registry.not_contains_tagged_freeCounter]
            exact Bool.false_ne_true

/-! ### Sites under their new names -/

namespace Sites

variable {label : Nat → Name} {s : Sites} {name : Name} {site total : Nat}

/-- The sites in view with the new names that `label` gives them. -/
def relabel (label : Nat → Name) (s : Sites) : Sites :=
  { s with frames := s.frames.map (·.map fun site => (label site.2, site.2)) }

/-- New names do not matter where a frame is left. -/
theorem relabel_exit : (s.relabel label).step .exit = (s.step .exit).relabel label := by
  simp [relabel, step]

/-- A site that is bound under its new name is the site, given its new name. -/
theorem relabel_bind :
    (s.relabel label).step (.bind (label s.next)) = (s.step (.bind name)).relabel label := by
  obtain ⟨frames, next⟩ := s
  cases frames <;> simp [relabel, step]

/-- The sites in view have numbers before the next one. -/
def Numbered (s : Sites) : Prop := ∀ frame ∈ s.frames, ∀ site ∈ frame, site.2 < s.next

/-- After an event, the sites in view still have numbers before the next one. -/
theorem Numbered.step (h : s.Numbered) (e : ScopeEvent) : (s.step e).Numbered := by
  have hle : s.next ≤ (s.step e).next := by
    cases e <;> simp [Sites.step]
  refine forall_step (fun frame hframe site hsite => (h frame hframe site hsite).trans_le hle) ?_
  rintro name rfl
  exact Nat.lt_succ_self s.next

/-- An entry with a new name comes from a site in view. -/
theorem mem_relabel {frame : List (Name × Nat)} (hframe : frame ∈ (s.relabel label).frames)
    {entry : Name × Nat} (hentry : entry ∈ frame) :
    ∃ old ∈ s.frames, ∃ site ∈ old, entry = (label site.2, site.2) := by
  obtain ⟨old, hold, rfl⟩ := List.mem_map.1 hframe
  obtain ⟨site, hsite, rfl⟩ := List.mem_map.1 hentry
  exact ⟨old, hold, site, hsite, rfl⟩

/-- If new names tell sites apart, the new name of the site that a name refers to refers to it. -/
theorem lookup_relabel_of_some (hs : s.Numbered) (htotal : s.next ≤ total)
    (hinj : ∀ i < total, ∀ j < total, label i = label j → i = j) (h : s.lookup name = some site) :
    (s.relabel label).lookup (label site) = some site := by
  obtain ⟨frame, hframe, hsite⟩ := exists_mem_of_lookup h
  have hbound : site < total := (hs frame hframe _ hsite).trans_le htotal
  cases hfound : (s.relabel label).lookup (label site) with
  | none =>
      have hmem : (label site, site) ∈ frame.map fun site => (label site.2, site.2) :=
        List.mem_map.2 ⟨_, hsite, rfl⟩
      exact absurd rfl (lookup_eq_none_iff.1 hfound _ (List.mem_map.2 ⟨_, hframe, rfl⟩) _ hmem)
  | some found =>
      obtain ⟨frame', hframe', hfound⟩ := exists_mem_of_lookup hfound
      obtain ⟨old, hold, entry, hentry, heq⟩ := mem_relabel hframe' hfound
      obtain ⟨hlabel, rfl⟩ := Prod.mk.inj heq
      have hbound' := (hs old hold _ hentry).trans_le htotal
      rw [hinj _ hbound _ hbound' hlabel]

/-- A name that is no new name refers to no site. -/
theorem lookup_relabel_of_ne (hs : s.Numbered) (htotal : s.next ≤ total)
    (hname : ∀ i < total, label i ≠ name) : (s.relabel label).lookup name = none := by
  refine lookup_eq_none_iff.2 fun frame hframe entry hentry => ?_
  obtain ⟨old, hold, site, hsite, rfl⟩ := mem_relabel hframe hentry
  exact hname _ ((hs old hold site hsite).trans_le htotal)

end Sites

/-! ### Frames of a context and sites -/

namespace Context

variable {label : Nat → Name} {c : Context} {s : Sites}

/-- Frame by frame, the context maps a name to the new name of the site that the name refers to. -/
def Relabels (c : Context) (label : Nat → Name) (s : Sites) : Prop :=
  List.Forall₂ (fun (frame : Frame) sites => ∀ name, frame[name]? = (sites.lookup name).map label)
    c.scopes.frames s.frames

/-- A context that maps names to the new names of sites finds the new name of the site that a name
refers to. -/
theorem Relabels.lookup (h : c.Relabels label s) (name : Name) :
    c.scopes.lookup name = (s.lookup name).map label := by
  obtain ⟨registry, ⟨frames⟩, sharesNext, unresolved⟩ := c
  obtain ⟨sites, next⟩ := s
  change List.Forall₂ _ frames sites at h
  simp only [Scopes.lookup, Sites.lookup]
  induction h with
  | nil => rfl
  | @cons frame sites _ _ htop _ ih =>
      rw [List.findSome?_cons, List.findSome?_cons, htop name, ih]
      cases sites.lookup name <;> rfl

/-- An event keeps the agreement, if a binding gets the new name of its site. -/
theorem Relabels.step (h : c.Relabels label s) {e : ScopeEvent}
    (he : ∀ name, e = .bind name → (c.registry.generate name).1 = label s.next) :
    (c.step e).Relabels label (s.step e) := by
  obtain ⟨registry, ⟨frames⟩, sharesNext, unresolved⟩ := c
  obtain ⟨sites, next⟩ := s
  cases e with
  | enter => exact .cons (by simp) h
  | exit => cases h with
    | nil => exact .nil
    | cons _ h => exact h
  | bind name => cases h with
    | nil => exact .nil
    | @cons top sites _ _ htop h =>
        refine .cons (fun other => ?_) h
        have hname : (registry.generate name).1 = label next := he name rfl
        change (top.insert name (registry.generate name).1)[other]? =
          (((name, next) :: sites).lookup other).map label
        rw [hname, Std.TreeMap.getElem?_insert, List.lookup_cons]
        by_cases heq : name = other
        · simp [heq]
        · have hbeq : (other == name) = false := beq_false_of_ne (Ne.symm heq)
          simp [heq, hbeq, htop other]
  | refer name =>
      rw [Context.step]
      split <;> exact h

end Context

/-! ### What the answers refer to -/

/-- A reference with the name that it is given if it is resolved to a site. -/
def relabelReference (label : Nat → Name) : Name × Option Nat → Name × Option Nat
  | (_, some site) => (label site, some site)
  | (name, none) => (name, none)

/-- Free references stay. -/
theorem mem_map_relabelReference {label : Nat → Name} {references : List (Name × Option Nat)}
    {name : Name} : (name, none) ∈ references.map (relabelReference label) ↔ (name, none) ∈ references := by
  rw [List.mem_map]
  constructor
  · rintro ⟨⟨old, _ | site⟩, hold, heq⟩
    · obtain ⟨rfl, -⟩ := Prod.mk.inj heq
      exact hold
    · exact absurd (Prod.mk.inj heq).2 (Option.some_ne_none site)
  · exact fun hname => ⟨_, hname, rfl⟩

/-- A name in view is answered with the new name of its site, which refers to this site; any other name
stays, and refers to none. -/
theorem Sites.relabelReference_lookup {label : Nat → Name} {total : Nat}
    (hinj : ∀ i < total, ∀ j < total, label i = label j → i = j) {c : Context} {s : Sites}
    (h : c.Relabels label s) (hs : s.Numbered) (htotal : s.next ≤ total) {name : Name}
    (hfree : s.lookup name = none → ∀ i < total, label i ≠ name) :
    ((c.scopes.lookup name).getD name, (s.relabel label).lookup ((c.scopes.lookup name).getD name)) =
      relabelReference label (name, s.lookup name) := by
  rw [h.lookup]
  cases hlookup : s.lookup name with
  | some site =>
      rw [Option.map_some, Option.getD_some, lookup_relabel_of_some hs htotal hinj hlookup]
      rfl
  | none =>
      rw [Option.map_none, Option.getD_none, lookup_relabel_of_ne hs htotal (hfree hlookup)]
      rfl

/-- The answers to events refer to the sites that the events refer to.  `label` gives the names that
the answers bind; it tells the sites up to `total` apart, and free references bear none of them. -/
theorem Sites.references_answers {label : Nat → Name} {total : Nat}
    (hinj : ∀ i < total, ∀ j < total, label i = label j → i = j) {es : List ScopeEvent}
    {c : Context} {s : Sites} (h : c.Relabels label s) (hs : s.Numbered)
    (htotal : s.next + (ScopeEvent.boundNames es).length ≤ total)
    (hlabel : ∀ (i : Nat) (name : Name),
      (ScopeEvent.boundNames (c.answers es))[i]? = some name → label (s.next + i) = name)
    (hfree : ∀ name, (name, none) ∈ s.references es → ∀ i < total, label i ≠ name) :
    (s.relabel label).references (c.answers es) =
      (s.references es).map (relabelReference label) := by
  induction es generalizing c s with
  | nil => rfl
  | cons e es ih =>
      rw [Context.answers_cons] at hlabel ⊢
      cases e with
      | enter =>
          have hrelabels := h.step (e := .enter) fun _ hbind => by cases hbind
          exact ih hrelabels (hs.step .enter) htotal hlabel hfree
      | exit =>
          have hstep : (s.relabel label).references (c.answer .exit :: (c.step .exit).answers es) =
              ((s.step .exit).relabel label).references ((c.step .exit).answers es) := by
            rw [← relabel_exit]
            rfl
          rw [hstep]
          have hrelabels := h.step (e := .exit) fun _ hbind => by cases hbind
          exact ih hrelabels (hs.step .exit) htotal hlabel hfree
      | bind name =>
          have hnext : label s.next = (c.registry.generate name).1 := hlabel 0 _ rfl
          have hstep : (s.relabel label).references
                (c.answer (.bind name) :: (c.step (.bind name)).answers es) =
              ((s.step (.bind name)).relabel label).references
                ((c.step (.bind name)).answers es) := by
            rw [← relabel_bind, hnext]
            rfl
          have hnames : ∀ other, ScopeEvent.bind name = .bind other →
              (c.registry.generate other).1 = label s.next := by
            intro other hother
            obtain rfl := ScopeEvent.bind.inj hother
            exact hnext.symm
          rw [hstep]
          -- the sites of the other events are numbered from the next one on
          refine ih (h.step hnames) (hs.step _) ?_ (fun i other hi => ?_) hfree
          · simp only [ScopeEvent.boundNames_bind, List.length_cons] at htotal
            simp only [step]
            omega
          · have hother := hlabel (i + 1) other hi
            rwa [show s.next + (i + 1) = (s.step (.bind name)).next + i by simp only [step]; omega]
              at hother
      | refer name =>
          have hrelabels := h.step (e := .refer name) fun _ hbind => by cases hbind
          have hrest := ih hrelabels hs htotal hlabel
            fun other hother => hfree other (List.mem_cons_of_mem _ hother)
          have hreference := relabelReference_lookup hinj h hs ((Nat.le_add_right _ _).trans htotal)
            fun hnone => hfree name (by rw [references, hnone]; exact List.mem_cons_self)
          exact congrArg₂ List.cons hreference hrest

namespace Callable

/-- The names at the binding sites of a renamed callable are allocated one after the other. -/
theorem Renamed.allocates {c c' : Callable} (h : c.Renamed c') :
    Allocates c.freeLocals c.sites c'.sites := by
  rw [sites, sites, h.events_eq]
  exact Context.allocates_answers (Registry.holds_reserveAll _)

/-- The references of a renamed callable: each refers to the site that it referred to before, by the
new name of the site, and those that are free stay. -/
theorem Renamed.references_eq {c c' : Callable} (h : c.Renamed c') :
    c'.references = c.references.map (relabelReference (c'.sites.getD · "")) := by
  have hallocates := h.allocates
  have hlength := hallocates.length_eq
  have hgetD : ∀ i (hi : i < c.sites.length),
      c'.sites.getD i "" = c'.sites.get ⟨i, hlength ▸ hi⟩ := by
    intro i hi
    rw [List.getD_eq_getElem, List.get_eq_getElem]
  have hinj : ∀ i < c.sites.length, ∀ j < c.sites.length,
      c'.sites.getD i "" = c'.sites.getD j "" → i = j := by
    intro i hi j hj heq
    rw [hgetD i hi, hgetD j hj] at heq
    exact Fin.mk.inj (List.nodup_iff_injective_get.1 hallocates.nodup heq)
  have hroot : (Context.start c.freeLocals).Relabels (c'.sites.getD · "") Sites.root :=
    .cons (by simp) .nil
  rw [references, h.events_eq]
  refine Sites.references_answers hinj hroot (by simp [Sites.Numbered, Sites.root]) ?_ ?_ ?_
  · exact (Nat.zero_add _).le
  · intro i name hi
    rw [← h.events_eq] at hi
    exact (congrArg (c'.sites.getD · "") (Nat.zero_add i)).trans (by
      rw [List.getD_eq_getElem?_getD]; exact congrArg (·.getD "") hi)
  · intro name hname i hi heq
    have hmem : name ∈ c'.sites := by
      rw [← heq, hgetD i hi]
      exact List.get_mem _ _
    exact hallocates.not_mem_taken hmem (mem_freeLocals.2 hname)

/-- The free references of a renamed callable are those of the callable. -/
theorem Renamed.freeLocals_eq {c c' : Callable} (h : c.Renamed c') : c'.freeLocals = c.freeLocals := by
  refine freeLocals_congr fun name => ?_
  rw [h.references_eq, mem_map_relabelReference]

/-- **Renaming keeps the binding structure.**  It succeeds, the renamed callable has as many binding
sites, and reference by reference it refers to the site with the same number or to none; a free
reference keeps its name. -/
theorem rename_references (c : Callable) :
    ∃ c', c.rename = .ok c' ∧ c'.sites.length = c.sites.length ∧
      c'.references.map Prod.snd = c.references.map Prod.snd ∧
      ∀ (k : Nat) (name : Name), c.references[k]? = some (name, none) →
        c'.references[k]? = some (name, none) := by
  obtain ⟨c', hrename, hc⟩ := c.rename_eq
  have hreferences := hc.references_eq
  refine ⟨c', hrename, hc.allocates.length_eq, ?_, fun k name hk => ?_⟩
  · rw [hreferences, List.map_map]
    refine List.map_congr_left fun reference _ => ?_
    obtain ⟨name, _ | site⟩ := reference <;> rfl
  · rw [hreferences, List.getElem?_map, hk]
    rfl

/-- The check for repeated names accepts a callable whose sites have different names. -/
theorem checkBindings_eq_ok {c : Callable} (h : c.sites.Nodup) : c.checkBindings = .ok () := by
  rw [checkBindings_eq_ok_iff, bindingNames_eq_sites]
  exact h

/-- **In a renamed callable names alone identify variables.**  No two binding sites bear one name, no
site bears the name of a free reference, and a reference refers to a site iff the site bears its
name.  The check for repeated names accepts. -/
theorem rename_unambiguous (c : Callable) :
    ∃ c', c.rename = .ok c' ∧ c'.sites.Nodup ∧
      (∀ name, (name, none) ∈ c'.references → name ∉ c'.sites) ∧
      (∀ name target, (name, target) ∈ c'.references →
        ∀ site, target = some site ↔ c'.sites[site]? = some name) ∧
      c'.bindingNames = c'.sites ∧ c'.checkBindings = .ok () := by
  obtain ⟨c', hrename, hc⟩ := c.rename_eq
  have hallocates := hc.allocates
  have hreferences := hc.references_eq
  have hnodup := hallocates.nodup
  have hfree : ∀ name, (name, none) ∈ c'.references → name ∉ c'.sites := by
    intro name hname
    rw [hreferences] at hname
    obtain ⟨⟨old, _ | site⟩, hold, heq⟩ := List.mem_map.1 hname
    · obtain ⟨rfl, -⟩ := Prod.mk.inj heq
      exact fun hmem => hallocates.not_mem_taken hmem (mem_freeLocals.2 hold)
    · exact absurd (Prod.mk.inj heq).2 (Option.some_ne_none site)
  refine ⟨c', hrename, hnodup, hfree, fun name target hname site => ?_,
    c'.bindingNames_eq_sites, checkBindings_eq_ok hnodup⟩
  constructor
  · rintro rfl
    exact getElem?_sites hname
  · intro hsite
    have hmem : name ∈ c'.sites := List.mem_of_getElem? hsite
    cases target with
    | none => exact absurd hmem (hfree name hname)
    | some other =>
        have hother := getElem?_sites hname
        have hbound : other < c'.sites.length := (List.getElem?_eq_some_iff.1 hother).1
        rw [(List.getElem?_inj hbound hnodup).1 (hother.trans hsite.symm)]

end Callable

end Freshen
