import Mathlib
import Freshen.Naming.Registry
import Freshen.Proofs.Naming.Tagged

/-!
# Allocation of fresh names

A registry hands out, for each name that is asked for, the form of its base with the least counter
that is not taken.

- `Registry.Holds`: the names that a registry holds, as a list.
- `Allocates`: what a row of requests is answered with.

**Key results.** `Registry.not_contains_tagged_freeCounter`, `Registry.mem_tagged_of_lt_freeCounter`: the
counter that is found is free, and the least one; `Allocates.nodup`, `Allocates.not_mem_taken`: what is
handed out is new; `Allocates.eq_of_bases`: it depends on nothing but what is taken and the bases;
`Allocates.again`: who asks for what was handed out gets the same; `Allocates.base_getElem?`: bases stay.
-/

namespace Freshen

/-! ### What a registry holds -/

namespace Registry

/-- The names in `taken`, and no others, are taken. -/
def Holds (r : Registry) (taken : List Name) : Prop := ∀ name, r.contains name ↔ name ∈ taken

/-- In the empty registry nothing is taken. -/
theorem holds_empty : empty.Holds [] := fun name => by
  rw [contains, empty, Std.TreeSet.contains_emptyc]
  simp

/-- After a name was reserved, this name is taken and what was taken before. -/
theorem contains_reserve (r : Registry) (name other : Name) :
    (r.reserve name).contains other ↔ other = name ∨ r.contains other := by
  simp only [contains, reserve, Std.TreeSet.contains_insert, Bool.or_eq_true, beq_iff_eq,
    Std.LawfulEqOrd.compare_eq_iff_eq]
  exact or_congr_left eq_comm

/-- After a name was reserved, it is one more of the names that are taken. -/
theorem Holds.reserve {r : Registry} {taken : List Name} (h : r.Holds taken) (name : Name) :
    (r.reserve name).Holds (name :: taken) := fun other => by
  rw [contains_reserve, h other, List.mem_cons]

/-- Reserving names takes these names besides those that are taken. -/
theorem contains_reserveAll (r : Registry) (names : List Name) (other : Name) :
    (r.reserveAll names).contains other ↔ other ∈ names ∨ r.contains other := by
  induction names generalizing r with
  | nil => simp [reserveAll]
  | cons name names ih =>
      rw [show r.reserveAll (name :: names) = (r.reserve name).reserveAll names from rfl, ih,
        contains_reserve, List.mem_cons]
      tauto

/-- A new registry in which names are reserved holds these names. -/
theorem holds_reserveAll (names : List Name) : (empty.reserveAll names).Holds names := fun other => by
  simp [contains_reserveAll, (holds_empty other)]

/-! ### The least free counter -/

/-- All numbers before the one that the search ends at are taken. -/
theorem taken_of_lt_leastFree {taken : Nat → Bool} {tries k j : Nat} (hk : k ≤ j)
    (hj : j < leastFree taken tries k) : taken j := by
  induction tries generalizing k with
  | zero => exact absurd hj (by simpa [leastFree] using hk)
  | succ tries ih =>
      rw [leastFree] at hj
      split at hj
      case isTrue h =>
        rcases hk.eq_or_lt with rfl | hk
        · exact h
        · exact ih hk hj
      case isFalse => omega

/-- The search ends at a number that is not taken, unless it runs out of tries. -/
theorem leastFree_eq_or_not_taken (taken : Nat → Bool) (tries k : Nat) :
    leastFree taken tries k = k + tries ∨ taken (leastFree taken tries k) = false := by
  induction tries generalizing k with
  | zero => exact .inl rfl
  | succ tries ih =>
      rw [leastFree]
      split
      case isTrue => exact (ih (k + 1)).imp_left fun h => by omega
      case isFalse h => exact .inr (by simpa using h)

/-- Every form with a smaller counter is taken. -/
theorem mem_tagged_of_lt_freeCounter {r : Registry} {base : Name} {j : Nat}
    (h : j < r.freeCounter base) : r.contains (Name.tagged j base) :=
  taken_of_lt_leastFree (Nat.zero_le j) h

/-- Distinct taken names are at most as many as the registry holds. -/
theorem length_le_size {r : Registry} {names : List Name} (hnodup : names.Nodup)
    (h : ∀ name ∈ names, r.contains name) : names.length ≤ r.size := by
  have hsub : names ⊆ r.names.toList := fun name hname =>
    Std.TreeSet.mem_toList.2 (Std.TreeSet.contains_iff_mem.1 (h name hname))
  exact (hnodup.length_le_of_subset hsub).trans_eq Std.TreeSet.length_toList

/-- The form with the counter that is found is free: otherwise more forms of the base would be taken
than there are names taken. -/
theorem not_contains_tagged_freeCounter (r : Registry) (base : Name) :
    r.contains (Name.tagged (r.freeCounter base) base) = false := by
  rcases leastFree_eq_or_not_taken (fun k => r.contains (Name.tagged k base)) r.size 0 with h | h
  · rw [Nat.zero_add] at h
    by_contra hcontra
    have hall : ∀ name ∈ (List.range (r.size + 1)).map (Name.tagged · base), r.contains name := by
      simp only [List.mem_map, List.mem_range, forall_exists_index, and_imp, forall_apply_eq_imp_iff₂]
      intro j hj
      rcases (Nat.lt_succ_iff.1 hj).eq_or_lt with rfl | hj
      · simpa [freeCounter, h] using hcontra
      · exact mem_tagged_of_lt_freeCounter (hj.trans_eq h.symm)
    have := length_le_size (Name.nodup_tagged base (r.size + 1)) hall
    simp at this
  · exact h

end Registry

/-! ### Rows of requests -/

/-- Requests for `names` are answered with `fresh` while `taken` are taken: each is answered with the
form of its base that has the least counter not taken, and that form is taken from then on. -/
inductive Allocates : (taken names fresh : List Name) → Prop
  | nil {taken : List Name} : Allocates taken [] []
  | cons {taken names fresh : List Name} {name : Name} {k : Nat} :
      (∀ j < k, Name.tagged j name.base ∈ taken) →
      Name.tagged k name.base ∉ taken →
      Allocates (Name.tagged k name.base :: taken) names fresh →
      Allocates taken (name :: names) (Name.tagged k name.base :: fresh)

namespace Allocates

variable {taken names fresh : List Name}

/-- Each request is answered with one name. -/
theorem length_eq (h : Allocates taken names fresh) : fresh.length = names.length := by
  induction h with
  | nil => rfl
  | cons _ _ _ ih => simp [ih]

/-- No name is handed out that was taken before. -/
theorem not_mem_taken (h : Allocates taken names fresh) {name : Name} (hname : name ∈ fresh) :
    name ∉ taken := by
  induction h with
  | nil => exact absurd hname List.not_mem_nil
  | cons _ hfree _ ih =>
      rcases List.mem_cons.1 hname with rfl | hname
      · exact hfree
      · exact fun htaken => ih hname (List.mem_cons_of_mem _ htaken)

/-- No name is handed out twice. -/
theorem nodup (h : Allocates taken names fresh) : fresh.Nodup := by
  induction h with
  | nil => exact List.nodup_nil
  | cons _ _ hrest ih =>
      exact List.nodup_cons.2 ⟨fun hmem => hrest.not_mem_taken hmem List.mem_cons_self, ih⟩

/-- What is handed out depends on the names asked for only by their bases. -/
theorem eq_of_bases {names' fresh' : List Name} (h : Allocates taken names fresh)
    (h' : Allocates taken names' fresh') (hbases : names.map Name.base = names'.map Name.base) :
    fresh = fresh' := by
  induction h generalizing names' fresh' with
  | nil =>
      obtain rfl := List.map_eq_nil_iff.1 hbases.symm
      cases h'
      rfl
  | @cons taken names fresh name k hless hfree _ ih =>
      cases h' with
      | nil => cases hbases
      | @cons _ names' fresh' name' k' hless' hfree' hrest' =>
          obtain ⟨hbase, hbases⟩ := List.cons.inj hbases
          rw [← hbase] at hless' hfree' hrest' ⊢
          -- the least free counter is one number
          have hle : k ≤ k' := Nat.not_lt.1 fun hlt => hfree' (hless k' hlt)
          have hge : k' ≤ k := Nat.not_lt.1 fun hlt => hfree (hless' k hlt)
          obtain rfl := Nat.le_antisymm hle hge
          rw [ih hrest' hbases]

/-- Who asks for the names that were handed out, with the same names taken as before, gets these names:
a name that is no form of its base is its own base, and not taken. -/
theorem again (h : Allocates taken names fresh) : Allocates taken fresh fresh := by
  induction h with
  | nil => exact .nil
  | @cons taken names fresh name k hless hfree _ ih =>
      rcases Name.base_tagged_cases k name with hbase | hbase
      · have hcons := @cons taken fresh fresh (Name.tagged k name.base) k
        rw [hbase] at hcons
        exact hcons hless hfree ih
      · have hcons := @cons taken fresh fresh (Name.tagged k name.base) 0
        rw [hbase] at hcons
        exact hcons (fun j hj => absurd hj (Nat.not_lt_zero j)) hfree ih

/-- The name handed out at a position has the base of the name asked for there, if that is not empty and
no more names were taken before than there are counters. -/
theorem base_getElem? (h : Allocates taken names fresh) {i : Nat} {name : Name}
    (hi : names[i]? = some name) (hname : name ≠ "")
    (hcount : taken.length + i < TaggedName.counterLimit) :
    ∃ new, fresh[i]? = some new ∧ new.base = name.base := by
  induction h generalizing i with
  | nil => cases hi
  | @cons taken names fresh first k hless _ _ ih =>
      cases i with
      | zero =>
          obtain rfl := Option.some.inj hi
          have hk : k ≤ taken.length := Name.counter_le_length hless
          exact ⟨_, rfl, Name.base_tagged hname (hk.trans_lt hcount)⟩
      | succ i =>
          refine ih hi ?_
          rwa [List.length_cons, Nat.succ_add_eq_add_succ]

end Allocates

end Freshen
