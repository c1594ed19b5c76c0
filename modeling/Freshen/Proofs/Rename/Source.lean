import Mathlib
import Freshen.Proofs.Layout.RoundTrip
import Freshen.Proofs.Naming.Identifiers
import Freshen.Proofs.Rename.Binding

/-!
# Renamed source

Whether the text that is printed for a renamed program is a program again, the renamed one.  Renaming
drops the tags of a name before it tells names apart, and what is left of an identifier need not be
an identifier: it may begin with a digit, or be a reserved word or an underscore.

- `Callable.Renamed.spellable_iff`: when a renamed callable can be written down.

**Key results.** `Program.parse_rename_iff`: the text of a renamed program is parsed as that program iff
no name that is bound in the program has a base that is no identifier.
-/

namespace Freshen

/-! ### The names of a callable -/

/-- The names in events are those that they bind and those that they refer to. -/
theorem ScopeEvent.allNames_iff {ok : Name → Prop} (s : Sites) (es : List ScopeEvent) :
    AllNames ok es ↔
      (∀ name ∈ boundNames es, ok name) ∧ ∀ reference ∈ s.references es, ok reference.1 := by
  induction es generalizing s with
  | nil => simp [Sites.references]
  | cons e es ih =>
      have hcons : AllNames ok (e :: es) ↔ (∀ name ∈ e.name?, ok name) ∧ AllNames ok es :=
        List.forall_mem_cons
      cases e with
      | enter => simpa [Sites.references] using ih _
      | exit => simpa [Sites.references] using ih _
      | bind name => simp [hcons, name?, Sites.references, ih (s.step (.bind name)), and_assoc]
      | refer name =>
          rw [hcons, ih s]
          simp [name?, Sites.references]
          tauto

namespace Callable

variable {c c' : Callable}

/-- A property holds of all names in events iff it holds of those at binding sites and in references. -/
theorem allNames_events {ok : Name → Prop} (c : Callable) :
    ScopeEvent.AllNames ok c.events ↔
      (∀ name ∈ c.sites, ok name) ∧ ∀ reference ∈ c.references, ok reference.1 :=
  ScopeEvent.allNames_iff Sites.root c.events

/-- The local names of a renamed callable are all identifiers iff the names at its sites are. -/
theorem Renamed.allNames_iff (h : c.Renamed c') (hc : ScopeEvent.AllNames IsIdentifier c.events) :
    ScopeEvent.AllNames IsIdentifier c'.events ↔ ∀ name ∈ c'.sites, IsIdentifier name := by
  rw [c'.allNames_events]
  refine and_iff_left_of_imp fun hsites reference hreference => ?_
  obtain ⟨name, _ | site⟩ := reference
  · -- a free reference is one of the callable before it was renamed
    rw [h.references_eq] at hreference
    obtain ⟨⟨old, _ | site⟩, hold, heq⟩ := List.mem_map.1 hreference
    · obtain ⟨rfl, -⟩ := Prod.mk.inj heq
      exact (c.allNames_events.1 hc).2 _ hold
    · exact absurd (Prod.mk.inj heq).2 (Option.some_ne_none site)
  · exact hsites name (List.mem_of_getElem? (getElem?_sites hreference))

/-- A renamed callable can be written down iff the bases of all names bound in the callable are
identifiers. -/
theorem Renamed.spellable_iff (h : c.Renamed c') (hc : c.Spellable IsIdentifier) :
    c'.Spellable IsIdentifier ↔ ∀ name ∈ c.bindingNames, IsIdentifier name.base := by
  obtain ⟨hshape, hnames⟩ := (c.spellable_iff IsIdentifier).1 hc
  have hlocals := c.allNames_events.1 hnames
  have hfree : ∀ name ∈ c.freeLocals, IsIdentifier name := fun name hname =>
    hlocals.2 _ (mem_freeLocals.1 hname)
  rw [c'.spellable_iff, h.withoutLocals_eq, and_iff_right hshape, h.allNames_iff hnames,
    h.allocates.isIdentifier_iff hfree hlocals.1, c.bindingNames_eq_sites]

/-- The same of several callables. -/
theorem Renamed.spellable_all_iff {cs cs' : List Callable} (h : List.Forall₂ Renamed cs cs')
    (hcs : ∀ c ∈ cs, c.Spellable IsIdentifier) :
    (∀ c' ∈ cs', c'.Spellable IsIdentifier) ↔
      ∀ c ∈ cs, ∀ name ∈ c.bindingNames, IsIdentifier name.base := by
  induction h with
  | nil => simp
  | cons hc _ ih =>
      obtain ⟨hfirst, hcs⟩ := List.forall_mem_cons.1 hcs
      rw [List.forall_mem_cons, List.forall_mem_cons, hc.spellable_iff hfirst, ih hcs]

end Callable

/-! ### The text of a renamed program -/

namespace Program

/-- The names that the callables of a program bind. -/
def boundNames (m : Program) : List Name := m.callables.flatMap Callable.bindingNames

/-- A program is parsed back from its text, up to spans, iff it can be written down. -/
theorem parse_format_iff (m : Program) :
    (∃ m', parse m.format = .ok m' ∧ m'.withoutSpans = m.withoutSpans) ↔
      m.Spellable IsIdentifier := by
  refine ⟨fun ⟨m', hparse, hspans⟩ => ?_, parse_format⟩
  have hspellable := spellable_of_parse hparse
  have hbare : m.withoutSpans.Spellable IsIdentifier :=
    hspans ▸ (m'.spellable_mapSpans IsIdentifier _).2 hspellable
  exact (m.spellable_mapSpans IsIdentifier _).1 hbare

/-- **When renamed source is source.**  A parsed program is renamed, and the text of the renamed program
is parsed as the renamed program, up to spans, iff the base of every name that a callable binds is an
identifier. -/
theorem parse_rename_iff {source : String} {m : Program} (h : parse source = .ok m) :
    ∃ m', m.rename = .ok m' ∧
      ((∃ m'', parse m'.format = .ok m'' ∧ m''.withoutSpans = m'.withoutSpans) ↔
        ∀ c ∈ m.callables, ∀ name ∈ c.bindingNames, IsIdentifier name.base) := by
  obtain ⟨m', hrename, hcallables⟩ := m.rename_eq
  refine ⟨m', hrename, ?_⟩
  rw [parse_format_iff]
  exact Callable.Renamed.spellable_all_iff hcallables (spellable_of_parse h)

/-- A name without tags, bound twice. -/
theorem parse_rename_shadowed :
    ∃ m m', Program.parse "fn f(x) \x7b let x = x; \x7d" = .ok m ∧ m.rename = .ok m' ∧
      ∃ m'', Program.parse m'.format = .ok m'' ∧ m''.withoutSpans = m'.withoutSpans := by
  obtain ⟨m, hm, hnames⟩ := Except.exists_map_eq_ok (show (Program.parse
    "fn f(x) \x7b let x = x; \x7d").map boundNames = .ok ["x", "x"] by decide +kernel)
  obtain ⟨m', hrename, hiff⟩ := parse_rename_iff hm
  refine ⟨m, m', hm, hrename, hiff.2 fun c hc name hname => ?_⟩
  have hmem : name ∈ ["x", "x"] := hnames ▸ List.mem_flatMap.2 ⟨c, hc, hname⟩
  obtain rfl : name = "x" := by simpa using hmem
  rw [Name.base, TaggedName.core_of_no_parts (by decide +kernel), String.ofList_toList]
  exact ⟨⟨'x', [], rfl, rfl, nofun⟩, by decide +kernel⟩

/-- The base of the parameter of `fn f(__var1__9__)` is no identifier, so its renamed form is not parsed
back from its text. -/
theorem not_parse_rename_digit :
    ∃ m m', Program.parse "fn f(__var1__9__) \x7b\x7d" = .ok m ∧ m.rename = .ok m' ∧
      ¬ ∃ m'', Program.parse m'.format = .ok m'' ∧ m''.withoutSpans = m'.withoutSpans := by
  obtain ⟨m, hm, hnames⟩ := Except.exists_map_eq_ok (show (Program.parse
    "fn f(__var1__9__) \x7b\x7d").map boundNames = .ok ["__var1__9__"] by decide +kernel)
  obtain ⟨m', hrename, hcallables⟩ := m.rename_eq
  refine ⟨m, m', hm, hrename, fun hparse => ?_⟩
  have hbases := (Callable.Renamed.spellable_all_iff hcallables (spellable_of_parse hm)).1
    ((parse_format_iff m').1 hparse)
  have hmem : "__var1__9__" ∈ m.boundNames := by simp [hnames]
  obtain ⟨c, hc, hname⟩ := List.mem_flatMap.1 hmem
  have hbase : Name.base "__var1__9__" = "9" := by
    have hparts : TaggedName.parts? "__var1__9__".toList = some (1, ['9']) := by decide +kernel
    rw [Name.base, TaggedName.core_of_parts? hparts,
      TaggedName.core_of_no_parts (by decide +kernel)]
  obtain ⟨⟨d, ds, hd, hstart, -⟩, -⟩ := hbase ▸ hbases c hc _ hname
  have hchars : ['9'] = d :: ds := by simpa using congrArg String.toList hd
  obtain ⟨rfl, -⟩ := List.cons.inj hchars
  exact absurd hstart (by decide)

end Program

end Freshen
