import Mathlib
import Freshen.Proofs.Naming.Tagged

/-!
# Layers of tags

A name that is tagged can be tagged again.  What can be read of it is one layer after the other, from the
outermost one on, and there is only one way to do so.

- `Name.layered`: a core under tags with given counters.
- `Name.Layers`: a name taken apart into counters and a core that has no tag.
- `Name.Strips`: a row of readings, each of the base that the one before has found.

**Key results.** `Name.bijOn_tagged`: writing and reading a tag are inverse to each other;
`Name.Strips.layers`, `Name.Layers.strips`: reading off one tag after the other takes a name apart, and in
no other way can it be taken apart; `Name.base_decomposition`: the base of a name is the core of this way.
-/

namespace Freshen

namespace Name

/-! ### One layer -/

/-- Valid parts are written as a tag around the base. -/
theorem tagged_of_valid {t : TaggedName} (h : t.Valid) : tagged t.counter t.base = t.text := by
  rw [tagged, if_neg h.counter_pos.ne']

/-- **Tags are written and read without loss.**  Exactly the names that are tagged with a counter from 1 to
`2 ^ 64 - 1` on a base that is not empty can be read, each as that counter and that base.  So tagging is a
bijection between such pairs and the tagged names. -/
theorem bijOn_tagged :
    (∀ name t, TaggedName.ofText? name = some t ↔ t.Valid ∧ tagged t.counter t.base = name) ∧
      Set.BijOn (fun t : TaggedName => tagged t.counter t.base) {t | t.Valid}
        {name | isTagged name = true} := by
  have hread : ∀ name t, TaggedName.ofText? name = some t ↔
      t.Valid ∧ tagged t.counter t.base = name := by
    intro name t
    rw [TaggedName.ofText?_eq_some_iff]
    refine and_congr_right fun hvalid => ?_
    rw [tagged_of_valid hvalid]
  refine ⟨hread, ?mapsTo, ?injOn, ?surjOn⟩
  case mapsTo =>
    intro t hvalid
    exact Option.isSome_of_eq_some ((hread _ t).2 ⟨hvalid, rfl⟩)
  case injOn =>
    intro t hvalid u hvalid' heq
    have ht := (hread _ t).2 ⟨hvalid, rfl⟩
    have hu := (hread _ u).2 ⟨hvalid', rfl⟩
    rw [show tagged t.counter t.base = tagged u.counter u.base from heq] at ht
    exact Option.some.inj (ht.symm.trans hu)
  case surjOn =>
    intro name hname
    obtain ⟨t, ht⟩ := Option.isSome_iff_exists.1 hname
    exact ⟨t, (hread name t).1 ht⟩

/-- A base of one underscore is told from the delimiters around it. -/
example : TaggedName.ofText? "__var1_____" = some ⟨1, "_"⟩ := by decide

/-! ### All layers -/

/-- The core under tags with the counters, the first of which is the outermost one. -/
def layered (counters : List Nat) (core : Name) : Name := counters.foldr tagged core

/-- The name is the core under tags with the counters, and the core has no tag. -/
structure Layers (name : Name) (counters : List Nat) (core : Name) : Prop where
  layered_eq : layered counters core = name
  counters_valid : ∀ k ∈ counters, 0 < k ∧ k < TaggedName.counterLimit
  untagged : isTagged core = false
  /-- The empty name is not tagged. -/
  core_ne : counters ≠ [] → core ≠ ""

/-- One tag after the other is read off the name, until what is left has none. -/
inductive Strips : (name : Name) → (counters : List Nat) → (core : Name) → Prop where
  | done {name : Name} (h : TaggedName.ofText? name = none) : Strips name [] name
  | layer {name inner core : Name} {counter : Nat} {counters : List Nat}
      (h : TaggedName.ofText? name = some ⟨counter, inner⟩) (hinner : Strips inner counters core) :
      Strips name (counter :: counters) core

variable {name core core' : Name} {counters counters' : List Nat}

/-- The tags of a name are read off in one way only. -/
theorem Strips.unique (h : Strips name counters core) (h' : Strips name counters' core') :
    counters' = counters ∧ core' = core := by
  induction h generalizing counters' with
  | done h =>
      rcases h' with _ | ⟨hlayer, -⟩
      · exact ⟨rfl, rfl⟩
      · cases h.symm.trans hlayer
  | layer h _ ih =>
      rcases h' with hdone | ⟨hlayer, hinner⟩
      · cases h.symm.trans hdone
      · obtain ⟨rfl, rfl⟩ := TaggedName.mk.inj (Option.some.inj (h.symm.trans hlayer))
        obtain ⟨rfl, rfl⟩ := ih hinner
        exact ⟨rfl, rfl⟩

/-- Reading tags off a name comes to an end, at its base. -/
theorem exists_strips_base (name : Name) : ∃ counters, Strips name counters name.base := by
  have hchars : ∀ cs : List Char,
      ∃ counters, Strips (String.ofList cs) counters (String.ofList (TaggedName.core cs)) := by
    intro cs
    induction cs using TaggedName.core.induct with
    | case1 cs counter inner hparts ih =>
        obtain ⟨counters, hcounters⟩ := ih
        rw [TaggedName.core_of_parts? hparts]
        refine ⟨counter :: counters, .layer ?_ hcounters⟩
        rw [TaggedName.ofText?, String.toList_ofList, hparts, Option.map_some]
    | case2 cs hparts =>
        rw [TaggedName.core_of_no_parts hparts]
        refine ⟨[], .done ?_⟩
        rw [TaggedName.ofText?, String.toList_ofList, hparts, Option.map_none]
  have hname := hchars name.toList
  rwa [String.ofList_toList] at hname

/-- Under any tags there is something left of a core that is not empty. -/
theorem layered_ne_empty (hcore : core ≠ "") (counters : List Nat) : layered counters core ≠ "" := by
  induction counters with
  | nil => exact hcore
  | cons k counters ih =>
      change tagged k (layered counters core) ≠ ""
      unfold tagged
      split
      · exact ih
      · intro hempty
        have hlength := TaggedName.length_lt_length_text k (layered counters core)
        rw [hempty] at hlength
        exact absurd hlength (Nat.not_lt_zero _)

/-- The tags that are read off make up the name together with its core. -/
theorem Strips.layers (h : Strips name counters core) : Layers name counters core := by
  induction h with
  | @done name h =>
      refine ⟨rfl, List.forall_mem_nil _, ?_, fun hne => absurd rfl hne⟩
      rw [isTagged, h, Option.isSome_none]
  | @layer name inner core counter counters h _ ih =>
      obtain ⟨hvalid, rfl⟩ := TaggedName.ofText?_eq_some_iff.1 h
      refine ⟨?_, List.forall_mem_cons.2 ⟨⟨hvalid.counter_pos, hvalid.counter_lt⟩, ih.counters_valid⟩,
        ih.untagged, fun _ => ?_⟩
      · rw [layered, List.foldr_cons, ← layered, ih.layered_eq, tagged_of_valid hvalid]
      · -- the innermost base that was read is the core
        rcases eq_or_ne counters [] with rfl | hcounters
        · rw [show core = inner from ih.layered_eq]
          exact hvalid.base_ne
        · exact ih.core_ne hcounters

/-- The tags that make up a name are read off one by one. -/
theorem Layers.strips (h : Layers name counters core) : Strips name counters core := by
  induction counters generalizing name with
  | nil =>
      obtain rfl : core = name := h.layered_eq
      exact .done (Option.isNone_iff_eq_none.1 (Option.isSome_eq_false_iff.1 h.untagged))
  | cons k counters ih =>
      obtain ⟨⟨hpos, hlt⟩, hcounters⟩ := List.forall_mem_cons.1 h.counters_valid
      have hcore : core ≠ "" := h.core_ne (List.cons_ne_nil _ _)
      have hvalid : TaggedName.Valid ⟨k, layered counters core⟩ :=
        ⟨hpos, hlt, layered_ne_empty hcore counters⟩
      refine .layer (TaggedName.ofText?_eq_some_iff.2 ⟨hvalid, ?_⟩)
        (ih ⟨rfl, hcounters, h.untagged, fun _ => hcore⟩)
      rw [← tagged_of_valid hvalid]
      exact h.layered_eq

/-- **The base of a name is its core without any tag.**  Reading one tag after the other off a name comes to
an end, at its base; this has no tag, and there is no other way to see the name as an untagged core under
tags.  So the base of a base is itself, and one more tag on a name that is not empty does not change its
base. -/
theorem base_decomposition (name : Name) :
    (∃ counters, Strips name counters name.base ∧ Layers name counters name.base ∧
      ∀ counters' core, Layers name counters' core → counters' = counters ∧ core = name.base) ∧
    name.base.isTagged = false ∧ name.base.base = name.base ∧
    ∀ counter < TaggedName.counterLimit, name ≠ "" → (tagged counter name).base = name.base := by
  obtain ⟨counters, hstrips⟩ := exists_strips_base name
  have hlayers := hstrips.layers
  refine ⟨⟨counters, hstrips, hlayers, ?_⟩, hlayers.untagged, base_base name, ?_⟩
  · intro counters' core h
    exact hstrips.unique h.strips
  · intro counter hcounter hname
    exact base_tagged_eq_base hname hcounter

/-- Two layers, the inner one with a leading zero that makes it a part of the core. -/
theorem base_decomposition_leadingZero :
    "__var3____var1____var01__y______" = tagged 3 (tagged 1 "__var01__y__") ∧
    base "__var3____var1____var01__y______" = "__var01__y__" ∧
    base (tagged 7 "__var3____var1____var01__y______") = "__var01__y__" := by
  obtain ⟨⟨counters, -, -, hunique⟩, -, -, htagged⟩ :=
    base_decomposition "__var3____var1____var01__y______"
  have hlayers : Layers "__var3____var1____var01__y______" [3, 1] "__var01__y__" :=
    ⟨by decide, by decide, by decide, by decide⟩
  obtain ⟨-, hbase⟩ := hunique _ _ hlayers
  exact ⟨by decide, hbase.symm, by rw [htagged 7 (by decide) (by decide), hbase]⟩

end Name

end Freshen
