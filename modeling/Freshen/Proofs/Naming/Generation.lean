import Mathlib
import Freshen.Proofs.Naming.Allocation

/-!
# Generating names, call after call

What a registry answers after any row of calls.  It hands out the form of a base with the least counter that
is not taken, by trying one counter after the other on a 64-bit number; the row of calls before says what is
taken.

- `RegistryCall`, `Registry.afterCalls`: calls, and the registry that a row of them leaves.
- `Registry.Search`: the search for a counter, as it runs on 64-bit numbers.
- `Registry.Generates`: what handing out a name answers and does.

**Key results.** `Registry.exists_search`: the search ends without wrapping around, because the forms of a base
that are taken are no more than the names that are taken; `Registry.contains_afterCalls`: taken are the names
that were generated or reserved since the last clear; `Registry.generates_afterCalls`: both, for every row of
calls.
-/

namespace Freshen

/-- A call on a registry. -/
inductive RegistryCall where
  | generate (candidate : Name)
  | reserve (name : Name)
  | clear
deriving DecidableEq

namespace RegistryCall

/-- The registry that a call leaves. -/
def perform (r : Registry) : RegistryCall → Registry
  | generate candidate => (r.generate candidate).2
  | reserve name => r.reserve name
  | clear => .empty

/-- The name that a call on a registry takes. -/
def taken? (r : Registry) : RegistryCall → Option Name
  | generate candidate => some (r.generate candidate).1
  | reserve name => some name
  | clear => none

/-- A call takes at most one name, and only clearing gives names back. -/
theorem contains_perform (r : Registry) (call : RegistryCall) (name : Name) :
    (call.perform r).contains name ↔
      call.taken? r = some name ∨ call ≠ .clear ∧ r.contains name := by
  cases call with
  | generate candidate =>
      refine (Registry.contains_reserve r _ name).trans (or_congr ?_ ?_)
      · rw [taken?, Option.some.injEq, eq_comm]
        rfl
      · exact (and_iff_right nofun).symm
  | reserve other =>
      refine (Registry.contains_reserve r other name).trans (or_congr ?_ ?_)
      · rw [taken?, Option.some.injEq, eq_comm]
      · exact (and_iff_right nofun).symm
  | clear =>
      refine iff_of_false ?_ (by simp [taken?])
      rw [perform, Registry.holds_empty name]
      exact List.not_mem_nil

end RegistryCall

namespace Registry

/-! ### Rows of calls -/

/-- The registry after a row of calls on a registry. -/
def after (r : Registry) (calls : List RegistryCall) : Registry := calls.foldl RegistryCall.perform r

/-- The registry after a row of calls, the first of them on a registry in which nothing is taken. -/
def afterCalls (calls : List RegistryCall) : Registry := empty.after calls

/-- What is taken stays taken until the next clear. -/
theorem contains_after {r : Registry} {calls : List RegistryCall} {name : Name}
    (hclear : .clear ∉ calls) (h : r.contains name) : (r.after calls).contains name := by
  induction calls generalizing r with
  | nil => exact h
  | cons call calls ih =>
      obtain ⟨hcall, hcalls⟩ := not_or.1 (mt List.mem_cons.2 hclear)
      exact ih hcalls ((call.contains_perform r name).2 (.inr ⟨Ne.symm hcall, h⟩))

/-- Taken are the names that were generated or reserved since the last clear. -/
theorem contains_afterCalls (calls : List RegistryCall) (name : Name) :
    (afterCalls calls).contains name ↔
      ∃ before call after, calls = before ++ call :: after ∧ .clear ∉ after ∧
        call.taken? (afterCalls before) = some name := by
  constructor
  · intro h
    induction calls using List.reverseRecOn with
    | nil => exact absurd ((holds_empty name).1 h) List.not_mem_nil
    | append_singleton calls call ih =>
        rw [show afterCalls (calls ++ [call]) = call.perform (afterCalls calls) from List.foldl_append,
          call.contains_perform] at h
        rcases h with htaken | ⟨hcall, h⟩
        · exact ⟨calls, call, [], rfl, List.not_mem_nil, htaken⟩
        · obtain ⟨before, earlier, after, rfl, hclear, htaken⟩ := ih h
          refine ⟨before, earlier, after ++ [call], by simp, ?_, htaken⟩
          simp [hclear, Ne.symm hcall]
  · rintro ⟨before, call, after, rfl, hclear, htaken⟩
    rw [show afterCalls (before ++ call :: after) = (call.perform (afterCalls before)).after after from
      List.foldl_append]
    exact contains_after hclear ((call.contains_perform _ name).2 (.inl htaken))

/-! ### The search -/

variable {r : Registry} {base : Name}

/-- The search for a form of `base` that is free.  From a 64-bit counter on it tries one counter after the
other, in wrapping arithmetic, and ends at the first whose form is free; `tried` are those before it. -/
inductive Search (r : Registry) (base : Name) : (counter : UInt64) → (tried : List UInt64) →
    (found : UInt64) → Prop
  | found {counter : UInt64} (h : r.contains (Name.tagged counter.toNat base) = false) :
      Search r base counter [] counter
  | next {counter found : UInt64} {tried : List UInt64}
      (h : r.contains (Name.tagged counter.toNat base) = true)
      (hnext : Search r base (counter + 1) tried found) : Search r base counter (counter :: tried) found

/-- A search has one course and one result. -/
theorem Search.unique {counter found found' : UInt64} {tried tried' : List UInt64}
    (h : r.Search base counter tried found) (h' : r.Search base counter tried' found') :
    tried' = tried ∧ found' = found := by
  induction h generalizing tried' with
  | found hfree =>
      cases h' with
      | found => exact ⟨rfl, rfl⟩
      | next htaken => cases hfree.symm.trans htaken
  | next htaken _ ih =>
      cases h' with
      | found hfree => cases hfree.symm.trans htaken
      | next _ hnext =>
          obtain ⟨rfl, rfl⟩ := ih hnext
          exact ⟨rfl, rfl⟩

/-- If the form of a base is free with a counter that 64 bits hold, and taken with each of the `count` before
it, then a search that starts there tries these and ends at it. -/
theorem exists_search_of_taken {count : Nat} {counter : UInt64}
    (hlimit : counter.toNat + count < TaggedName.counterLimit)
    (htaken : ∀ i < count, r.contains (Name.tagged (counter.toNat + i) base))
    (hfree : r.contains (Name.tagged (counter.toNat + count) base) = false) :
    ∃ tried found, r.Search base counter tried found ∧
      tried.map UInt64.toNat = List.range' counter.toNat count ∧ found.toNat = counter.toNat + count := by
  induction count generalizing counter with
  | zero => exact ⟨[], counter, .found hfree, rfl, rfl⟩
  | succ count ih =>
      have hsucc : (counter + 1).toNat = counter.toNat + 1 := by
        have hbound : counter.toNat + 1 < 2 ^ 64 := by
          refine lt_of_le_of_lt ?_ hlimit
          omega
        rw [UInt64.toNat_add, UInt64.toNat_one, Nat.mod_eq_of_lt hbound]
      have hnext : ∃ tried found, r.Search base (counter + 1) tried found ∧
          tried.map UInt64.toNat = List.range' (counter + 1).toNat count ∧
            found.toNat = (counter + 1).toNat + count := by
        refine ih ?_ (fun i hi => ?_) ?_
        · rwa [hsucc, Nat.add_right_comm]
        · rw [hsucc, Nat.add_right_comm]
          exact htaken (i + 1) (Nat.succ_lt_succ hi)
        · rwa [hsucc, Nat.add_right_comm]
      obtain ⟨tried, found, hsearch, htried, hfound⟩ := hnext
      refine ⟨counter :: tried, found, .next (htaken 0 (Nat.succ_pos count)) hsearch, ?_, ?_⟩
      · rw [List.map_cons, htried, hsucc, List.range'_succ]
      · rw [hfound, hsucc, Nat.add_right_comm, Nat.add_assoc]

/-- The least free counter is at most the number of names taken. -/
theorem freeCounter_le_size (r : Registry) (base : Name) : r.freeCounter base ≤ r.size := by
  have hforms := length_le_size (Name.nodup_tagged base (r.freeCounter base)) (r := r) (by
    simp only [List.mem_map, List.mem_range, forall_exists_index, and_imp, forall_apply_eq_imp_iff₂]
    exact fun j hj => mem_tagged_of_lt_freeCounter hj)
  rwa [List.length_map, List.length_range] at hforms

/-- If fewer names are taken than there are counters, the search ends, in one way only: it tries the counters
from 0 on, in order and without wrapping around, up to the least that is free. -/
theorem exists_search (hsize : r.size < TaggedName.counterLimit) (base : Name) :
    ∃ tried found, (∀ tried' found', r.Search base 0 tried' found' ↔ tried' = tried ∧ found' = found) ∧
      tried.map UInt64.toNat = List.range (r.freeCounter base) ∧ found.toNat = r.freeCounter base := by
  have hzero : (0 : UInt64).toNat = 0 := rfl
  have hsearch : ∃ tried found, r.Search base 0 tried found ∧
      tried.map UInt64.toNat = List.range' (0 : UInt64).toNat (r.freeCounter base) ∧
        found.toNat = (0 : UInt64).toNat + r.freeCounter base := by
    refine exists_search_of_taken ?_ (fun i hi => ?_) ?_
    · rw [hzero, Nat.zero_add]
      exact (freeCounter_le_size r base).trans_lt hsize
    · rw [hzero, Nat.zero_add]
      exact mem_tagged_of_lt_freeCounter hi
    · rw [hzero, Nat.zero_add]
      exact not_contains_tagged_freeCounter r base
  obtain ⟨tried, found, hsearch, htried, hfound⟩ := hsearch
  refine ⟨tried, found, fun tried' found' => ⟨hsearch.unique, ?_⟩, ?_, ?_⟩
  · rintro ⟨rfl, rfl⟩
    exact hsearch
  · rw [htried, hzero, List.range_eq_range']
  · rw [hfound, hzero, Nat.zero_add]

/-! ### Forms of a base -/

/-- The names taken that are forms of a base with one of the `counters`. -/
def forms (r : Registry) (base : Name) (counters : Set Nat) : Set Name :=
  {name | r.contains name ∧ ∃ counter ∈ counters, name = Name.tagged counter base}

/-- The forms of a base that are taken are among the names that are taken. -/
theorem forms_subset (r : Registry) (base : Name) (counters : Set Nat) :
    r.forms base counters ⊆ r.names.toList.toFinset :=
  fun _ hname => List.mem_toFinset.2 (Std.TreeSet.mem_toList.2 (Std.TreeSet.contains_iff_mem.1 hname.1))

/-- The least free counter is at most the number of forms that are taken, of which only those with a smaller
counter are needed. -/
theorem freeCounter_le_ncard_forms {counters : Set Nat} (hcounters : Set.Iio (r.freeCounter base) ⊆ counters) :
    r.freeCounter base ≤ (r.forms base counters).ncard := by
  have hsmaller : (Name.tagged · base) '' Set.Iio (r.freeCounter base) ⊆ r.forms base counters := by
    rintro name ⟨counter, hcounter, rfl⟩
    exact ⟨mem_tagged_of_lt_freeCounter hcounter, counter, hcounters hcounter, rfl⟩
  have hinjective : Function.Injective (Name.tagged · base) := fun _ _ => Name.tagged_inj.1
  have hfinite : (r.forms base counters).Finite := (Finset.finite_toSet _).subset (forms_subset r base counters)
  calc r.freeCounter base = (Set.Iio (r.freeCounter base)).ncard := by
        rw [← Finset.coe_Iio, Set.ncard_coe_finset, Nat.card_Iio]
    _ = ((Name.tagged · base) '' Set.Iio (r.freeCounter base)).ncard :=
        (Set.ncard_image_of_injective _ hinjective).symm
    _ ≤ (r.forms base counters).ncard := Set.ncard_le_ncard hsmaller hfinite

/-! ### Handing out a name -/

/-- A registry hands out a form of the base of `candidate`, the one with the counter `k`. -/
structure Generates (r : Registry) (candidate : Name) (k : Nat) : Prop where
  name_eq : (r.generate candidate).1 = Name.tagged k candidate.base
  /-- The name was free, -/
  free : r.contains (Name.tagged k candidate.base) = false
  /-- and each form with a smaller counter was taken. -/
  least : ∀ j < k, r.contains (Name.tagged j candidate.base) = true
  /-- This name is taken from then on, and no other is taken or given back. -/
  contains_iff : ∀ name, (r.generate candidate).2.contains name ↔
    name = (r.generate candidate).1 ∨ r.contains name
  size_eq : (r.generate candidate).2.size = r.size + 1
  /-- The counter is at most the number of forms of the base that are taken; -/
  counter_le : k ≤ (r.forms candidate.base Set.univ).ncard
  /-- if fewer names are taken than there are 64-bit counters, the forms with such a counter suffice. -/
  counter_le_limited : r.size < TaggedName.counterLimit →
    k ≤ (r.forms candidate.base (Set.Iio TaggedName.counterLimit)).ncard
  /-- The search on 64-bit numbers ends, in one way only, after all smaller counters in order. -/
  search : r.size < TaggedName.counterLimit → ∃ tried found,
    (∀ tried' found', r.Search candidate.base 0 tried' found' ↔ tried' = tried ∧ found' = found) ∧
      tried.map UInt64.toNat = List.range k ∧ found.toNat = k
  /-- The name has the base of the candidate. -/
  base_eq : r.size < TaggedName.counterLimit → candidate ≠ "" →
    (r.generate candidate).1.base = candidate.base

/-- To reserve a free name makes the registry one name larger. -/
theorem size_reserve {name : Name} (h : r.contains name = false) :
    (r.reserve name).size = r.size + 1 :=
  Std.TreeSet.size_insert.trans (if_neg (ne_true_of_eq_false h))

/-- A request is answered with the form whose counter is the least free one. -/
theorem generates (r : Registry) (candidate : Name) :
    r.Generates candidate (r.freeCounter candidate.base) where
  name_eq := rfl
  free := not_contains_tagged_freeCounter r candidate.base
  least _ := mem_tagged_of_lt_freeCounter
  contains_iff := contains_reserve r _
  size_eq := size_reserve (not_contains_tagged_freeCounter r candidate.base)
  counter_le := freeCounter_le_ncard_forms (Set.subset_univ _)
  counter_le_limited hsize := freeCounter_le_ncard_forms <|
    Set.Iio_subset_Iio ((freeCounter_le_size r candidate.base).trans hsize.le)
  search hsize := exists_search hsize candidate.base
  base_eq hsize hcandidate :=
    Name.base_tagged hcandidate ((freeCounter_le_size r candidate.base).trans_lt hsize)

/-- **Names are generated fresh, with the least counter, and the search for it ends.**  After any calls a
registry hands out the form of the base of a candidate with the least counter whose form is not taken, and
takes that name and no other.  What is taken was generated or reserved since the last clear, so a name is
never handed out twice between two clears, nor after it was reserved. -/
theorem generates_afterCalls (calls : List RegistryCall) (candidate : Name) :
    (∃ k, (afterCalls calls).Generates candidate k) ∧
      ∀ name, (afterCalls calls).contains name ↔
        ∃ before call after, calls = before ++ call :: after ∧ .clear ∉ after ∧
          call.taken? (afterCalls before) = some name :=
  ⟨⟨_, generates _ candidate⟩, contains_afterCalls calls⟩

end Registry

end Freshen
