import Mathlib
import Freshen.Naming.Tagged

/-!
# Tags and bases

Writing a tag and reading it are inverse to each other, as far as counters go.  So the base of a name is
not lost when a tag is put on it.

- `TaggedName.Valid`: what a tag can be written with.
- `TaggedName.eq_text_of_parts?`: a name with parts is their written form.
- `TaggedName.parts?_text`: the parts of a written form.

**Key results.** `TaggedName.ofText?_eq_some_iff`: what can be read, and as what; `Name.tagged_inj`: different
counters give different forms of one base; `Name.base_tagged_eq_base`, `Name.base_tagged`: a tag does not
change the base; `Name.base_tagged_cases`: if it does, then the form is its own base.
-/

namespace Freshen

/-- A number that is not zero is written without a leading zero. -/
theorem Decimal.head?_toDigits_ne {n : Nat} (h : 0 < n) : (Nat.toDigits 10 n).head? ≠ some '0' := by
  induction n using Nat.strongRecOn with
  | ind n ih =>
    by_cases hlt : n < 10
    · have hdigits : ∀ d < 10, 0 < d → Nat.digitChar d ≠ '0' := by decide
      rw [Nat.toDigits_of_lt_base hlt, List.head?_cons]
      exact fun heq => hdigits n hlt h (Option.some.inj heq)
    · have hle : 10 ≤ n := Nat.not_lt.1 hlt
      have hne : Nat.toDigits 10 (n / 10) ≠ [] := Nat.toDigits_ne_nil
      rw [Nat.toDigits_of_base_le (by omega) hle, List.head?_append_of_ne_nil _ hne]
      exact ih (n / 10) (by omega) (by omega)

/-- A digit is what its number is written with. -/
theorem Decimal.toDigits_digitValue {c : Char} (h : c.isDigit = true) :
    digitValue c < 10 ∧ Nat.toDigits 10 (digitValue c) = [c] := by
  obtain ⟨hlow, hhigh⟩ := Char.isDigit_iff_toNat.1 h
  have hzero : '0'.toNat = 48 := rfl
  have hnine : '9'.toNat = 57 := rfl
  have hlt : digitValue c < 10 := by
    unfold digitValue
    omega
  refine ⟨hlt, ?_⟩
  rw [Nat.toDigits_of_lt_base hlt, List.singleton_inj]
  apply Char.toNat_inj.1
  rw [Nat.toNat_digitChar_of_lt_ten hlt]
  unfold digitValue
  omega

/-- A row of digits without a leading zero is what its number is written with. -/
theorem Decimal.toDigits_value {digits : List Char} (hdigits : ∀ c ∈ digits, c.isDigit = true)
    (hne : digits ≠ []) (hhead : digits.head? ≠ some '0') : Nat.toDigits 10 (value digits) = digits := by
  induction digits using List.reverseRecOn with
  | nil => exact absurd rfl hne
  | append_singleton ds c ih =>
      obtain ⟨hds, hc⟩ := List.forall_mem_append.1 hdigits
      obtain ⟨hlt, hlast⟩ := toDigits_digitValue (hc c (List.mem_singleton_self c))
      rw [value_append_singleton]
      rcases eq_or_ne ds [] with rfl | hne
      · simpa [value] using hlast
      · rw [List.head?_append_of_ne_nil _ hne] at hhead
        have hvalue := ih hds hne hhead
        have hpos : 0 < value ds := by
          apply Nat.pos_of_ne_zero
          intro hzero
          rw [hzero] at hvalue
          exact hhead (by rw [← hvalue]; rfl)
        rw [← Nat.toDigits_append_toDigits (by decide) hpos hlt, hvalue, hlast]

/-! ### The written form -/

namespace TaggedName

/-- The characters of a written form. -/
theorem toList_text (counter : Nat) (base : Name) :
    (text ⟨counter, base⟩).toList =
      tag.toList ++ Nat.toDigits 10 counter ++ delimiter.toList ++ base.toList ++
        delimiter.toList := by
  simp [text, String.toList_append]

/-- A written form is longer than its base. -/
theorem length_lt_length_text (counter : Nat) (base : Name) :
    base.toList.length < (text ⟨counter, base⟩).toList.length := by
  have htag : tag.toList.length = 5 := by decide
  rw [toList_text]
  simp only [List.length_append]
  omega

/-- Written forms of one base tell their counters apart. -/
theorem text_inj {j k : Nat} {base : Name} : text ⟨j, base⟩ = text ⟨k, base⟩ ↔ j = k := by
  refine ⟨fun h => ?_, fun h => h ▸ rfl⟩
  have hchars := congrArg String.toList h
  rw [toList_text, toList_text, List.append_left_inj, List.append_left_inj, List.append_left_inj,
    List.append_right_inj] at hchars
  rw [← Decimal.value_toDigits j, hchars, Decimal.value_toDigits]

end TaggedName

namespace Name

/-- Different counters give different forms of one base. -/
theorem tagged_inj {j k : Nat} {base : Name} : tagged j base = tagged k base ↔ j = k := by
  have hne : ∀ i, TaggedName.text ⟨i, base⟩ ≠ base := fun i h =>
    absurd (TaggedName.length_lt_length_text i base) (by rw [h]; exact Nat.lt_irrefl _)
  rcases Nat.eq_zero_or_pos j with rfl | hj <;> rcases Nat.eq_zero_or_pos k with rfl | hk
  · simp
  · simp [tagged, hk.ne', hk.ne, (hne k).symm]
  · simp [tagged, hj.ne', hne j]
  · simp [tagged, hj.ne', hk.ne', TaggedName.text_inj]

/-- The forms of a base with the first counters are all different. -/
theorem nodup_tagged (base : Name) (count : Nat) : ((List.range count).map (tagged · base)).Nodup :=
  List.nodup_range.map fun _ _ => tagged_inj.1

/-- If a base is taken with every smaller counter, then a counter is at most the number of names taken. -/
theorem counter_le_length {taken : List Name} {base : Name} {k : Nat}
    (h : ∀ j < k, tagged j base ∈ taken) : k ≤ taken.length := by
  have hsub : (List.range k).map (tagged · base) ⊆ taken := by
    intro name hname
    obtain ⟨j, hj, rfl⟩ := List.mem_map.1 hname
    exact h j (List.mem_range.1 hj)
  have hle := (nodup_tagged base k).length_le_of_subset hsub
  rwa [List.length_map, List.length_range] at hle

end Name

/-! ### Reading a written form -/

namespace TaggedName

/-- A beginning can be taken off from what starts with it. -/
theorem stripStart?_append (start rest : List Char) : stripStart? start (start ++ rest) = some rest := by
  induction start with
  | nil => rfl
  | cons s start ih => rw [List.cons_append, stripStart?, if_pos rfl, ih]

/-- An ending can be taken off from what stops with it. -/
theorem stripEnd?_append (rest finish : List Char) : stripEnd? finish (rest ++ finish) = some rest := by
  rw [stripEnd?, List.reverse_append, stripStart?_append, Option.map_some, List.reverse_reverse]

/-- What is left after a beginning was taken off makes up the text with it. -/
theorem eq_of_stripStart? {start cs rest : List Char} (h : stripStart? start cs = some rest) :
    cs = start ++ rest := by
  induction start generalizing cs with
  | nil => exact Option.some.inj h
  | cons s start ih =>
      cases cs with
      | nil => cases h
      | cons c cs =>
          rw [stripStart?] at h
          split at h
          case isTrue hc => rw [hc, ih h, List.cons_append]
          case isFalse => cases h

/-- What is left after an ending was taken off makes up the text with it. -/
theorem eq_of_stripEnd? {finish cs rest : List Char} (h : stripEnd? finish cs = some rest) :
    cs = rest ++ finish := by
  obtain ⟨r, hr, rfl⟩ := Option.map_eq_some_iff.1 h
  rw [← List.reverse_inj, List.reverse_append, List.reverse_reverse]
  exact eq_of_stripStart? hr

/-- A name with parts is their written form; its counter is within the limit, its base is not empty. -/
theorem eq_text_of_parts? {cs base : List Char} {counter : Nat} (h : parts? cs = some (counter, base)) :
    (0 < counter ∧ counter < counterLimit ∧ base ≠ []) ∧
      cs = (text ⟨counter, String.ofList base⟩).toList := by
  simp only [parts?, Option.bind_eq_bind, Option.bind_eq_some_iff] at h
  obtain ⟨rest, hrest, h⟩ := h
  split at h
  case isTrue => cases h
  case isFalse hcounter =>
    obtain ⟨hne, hhead, hlimit⟩ : _ ∧ _ ∧ _ := by simpa only [not_or, Nat.not_le] using hcounter
    obtain ⟨inner, hinner, b, hb, h⟩ := by simpa only [Option.bind_eq_some_iff] using h
    split at h
    case isTrue => cases h
    case isFalse hbase =>
      obtain ⟨rfl, rfl⟩ := Prod.mk.inj (Option.some.inj h)
      have hdigits := Decimal.toDigits_value (fun c hc => List.mem_takeWhile_imp hc) hne hhead
      refine ⟨⟨?_, hlimit, hbase⟩, ?_⟩
      · apply Nat.pos_of_ne_zero
        intro hzero
        exact hhead (by rw [← hdigits, hzero]; rfl)
      · rw [toList_text, hdigits, String.toList_ofList, eq_of_stripStart? hrest]
        simp only [List.append_assoc]
        rw [← eq_of_stripEnd? hb, ← eq_of_stripStart? hinner, List.takeWhile_append_dropWhile]

/-- A written form is read back, if its base is not empty and its counter is within the limit. -/
theorem parts?_text {counter : Nat} (base : Name) (h : 0 < counter) :
    parts? (text ⟨counter, base⟩).toList =
      if counterLimit ≤ counter ∨ base = "" then none else some (counter, base.toList) := by
  have hdigits : ∀ c ∈ Nat.toDigits 10 counter, c.isDigit = true := fun c hc =>
    Nat.isDigit_of_mem_toDigits (by decide) (by decide) hc
  have hne : Nat.toDigits 10 counter ≠ [] := Nat.toDigits_ne_nil
  have hhead : (Nat.toDigits 10 counter).head? ≠ some '0' := Decimal.head?_toDigits_ne h
  -- the digits end where the delimiter begins
  have htake : ∀ rest, (Nat.toDigits 10 counter ++ (delimiter.toList ++ rest)).takeWhile Char.isDigit =
      Nat.toDigits 10 counter := by
    intro rest
    rw [List.takeWhile_append_of_pos hdigits]
    exact List.append_nil _
  have hdrop : ∀ rest, (Nat.toDigits 10 counter ++ (delimiter.toList ++ rest)).dropWhile Char.isDigit =
      delimiter.toList ++ rest := by
    intro rest
    rw [List.dropWhile_append_of_pos hdigits]
    rfl
  rw [toList_text]
  simp only [List.append_assoc, parts?, stripStart?_append, Option.bind_eq_bind, Option.bind_some, htake,
    hdrop, stripEnd?_append, Decimal.value_toDigits, hne, hhead, false_or, String.toList_eq_nil_iff]
  by_cases hlimit : counterLimit ≤ counter
  · simp [hlimit]
  · by_cases hbase : base = "" <;> simp [hlimit, hbase]

/-- What a tag can be written with: a counter within the limit that is not zero, and a base that is not
empty. -/
structure Valid (t : TaggedName) : Prop where
  counter_pos : 0 < t.counter
  counter_lt : t.counter < counterLimit
  base_ne : t.base ≠ ""

/-- What can be read are the written forms of valid parts, and they are read as these parts. -/
theorem ofText?_eq_some_iff {name : Name} {t : TaggedName} :
    ofText? name = some t ↔ t.Valid ∧ t.text = name := by
  constructor
  · intro h
    obtain ⟨⟨counter, base⟩, hparts, rfl⟩ := Option.map_eq_some_iff.1 h
    obtain ⟨⟨hpos, hlt, hbase⟩, htext⟩ := eq_text_of_parts? hparts
    refine ⟨⟨hpos, hlt, ?_⟩, (String.toList_inj.1 htext).symm⟩
    intro hempty
    exact hbase (String.ofList_eq_empty_iff.1 hempty)
  · rintro ⟨⟨hpos, hlt, hbase⟩, rfl⟩
    have hread : ¬(counterLimit ≤ t.counter ∨ t.base = "") := not_or.2 ⟨Nat.not_le.2 hlt, hbase⟩
    have hparts : parts? t.text.toList = some (t.counter, t.base.toList) := by
      rw [parts?_text t.base hpos, if_neg hread]
    simp only [ofText?, hparts, Option.map_some, String.ofList_toList]

/-- The core of a tagged text is the core of what its tag surrounds. -/
theorem core_of_parts? {cs base : List Char} {counter : Nat} (h : parts? cs = some (counter, base)) :
    core cs = core base := by
  rw [core]
  split
  case h_1 hsome => rw [(Prod.mk.inj (Option.some.inj (hsome.symm.trans h))).2]
  case h_2 hnone => cases hnone.symm.trans h

/-- A text without a tag is its own core. -/
theorem core_of_no_parts {cs : List Char} (h : parts? cs = none) : core cs = cs := by
  rw [core]
  split
  case h_1 hsome => cases hsome.symm.trans h
  case h_2 => rfl

/-- The characters of a name without its tags stand in the name. -/
theorem mem_of_mem_core {c : Char} {cs : List Char} (h : c ∈ core cs) : c ∈ cs := by
  induction cs using core.induct with
  | case1 cs counter base hparts ih =>
      rw [(eq_text_of_parts? hparts).2, toList_text]
      have hbase := ih (core_of_parts? hparts ▸ h)
      simp [hbase]
  | case2 cs hparts => exact core_of_no_parts hparts ▸ h

/-- Under the core there is no other. -/
theorem core_core (cs : List Char) : core (core cs) = core cs := by
  induction cs using core.induct with
  | case1 cs counter base hparts ih => rw [core_of_parts? hparts, ih]
  | case2 cs hparts => rw [core_of_no_parts hparts, core_of_no_parts hparts]

/-- The core of a text that is not empty is not empty. -/
theorem core_ne_nil {cs : List Char} (h : cs ≠ []) : core cs ≠ [] := by
  induction cs using core.induct with
  | case1 cs counter base hparts ih =>
      rw [core_of_parts? hparts]
      exact ih (eq_text_of_parts? hparts).1.2.2
  | case2 cs hparts => rwa [core_of_no_parts hparts]

end TaggedName

/-! ### The base of a form -/

namespace Name

/-- A base is its own base. -/
@[simp] theorem base_base (name : Name) : name.base.base = name.base := by
  rw [base, base, String.toList_ofList, TaggedName.core_core]

/-- The base of a name that is not empty is not empty. -/
theorem base_ne_empty {name : Name} (h : name ≠ "") : name.base ≠ "" := by
  intro hbase
  have hchars := congrArg String.toList hbase
  rw [base, String.toList_ofList] at hchars
  exact TaggedName.core_ne_nil (fun hnil => h (String.toList_eq_nil_iff.1 hnil)) hchars

/-- A tag with a counter within the limit does not change the base of a name that is not empty. -/
theorem base_tagged_eq_base {name : Name} (hname : name ≠ "") {k : Nat}
    (hk : k < TaggedName.counterLimit) : (tagged k name).base = name.base := by
  rcases Nat.eq_zero_or_pos k with rfl | hpos
  · rfl
  · have hparts := TaggedName.parts?_text name hpos
    rw [if_neg (not_or.2 ⟨Nat.not_le.2 hk, hname⟩)] at hparts
    rw [tagged, if_neg hpos.ne', base, TaggedName.core_of_parts? hparts, ← base]

/-- A form of a base has that base, if the name is not empty and the counter is within the limit. -/
theorem base_tagged {name : Name} (hname : name ≠ "") {k : Nat} (hk : k < TaggedName.counterLimit) :
    (tagged k name.base).base = name.base := by
  rw [base_tagged_eq_base (base_ne_empty hname) hk, base_base]

/-- A form of a base has that base, or, if its tag cannot be read, it is its own base. -/
theorem base_tagged_cases (k : Nat) (name : Name) :
    (tagged k name.base).base = name.base ∨ (tagged k name.base).base = tagged k name.base := by
  rcases Nat.eq_zero_or_pos k with rfl | hpos
  · exact .inl (base_base name)
  by_cases hread : TaggedName.counterLimit ≤ k ∨ name.base = ""
  · have hparts := TaggedName.parts?_text name.base hpos
    rw [if_pos hread] at hparts
    right
    rw [tagged, if_neg hpos.ne', base, TaggedName.core_of_no_parts hparts, String.ofList_toList]
  · obtain ⟨hlimit, hbase⟩ := not_or.1 hread
    left
    rw [base_tagged_eq_base hbase (Nat.not_le.1 hlimit), base_base]

end Name

end Freshen
