import Mathlib
import Freshen.Command.Options

/-!
# The grammar of the rename options

Arguments fall into groups: a flag, an output option with the path after it, a positional argument, or what
is wrong.  Which options an argument list stands for is told from its groups.

- `ArgGroup`: a group; `ArgGroup.args`: the arguments that it consists of.
- `ArgGroup.Reads`: an argument list read into groups; `ArgGroup.split` reads it.
- `ArgGroup.Offends`: a group that is an error where it stands, behind the groups before it.
- `RenameOptions.Fits`: the options that groups stand for.

**Key results.** `ArgGroup.reads_iff`: an argument list is read into groups in one way only;
`RenameOptions.Draft.take_append`: what is drafted after groups none of which offends;
`RenameOptions.ofArgs_grammar`: which options an argument list stands for, in any order of its groups, and
which error it is otherwise.
-/

namespace Freshen

/-- Arguments of the rename command that belong together. -/
inductive ArgGroup where
  | verify
  | parallel
  /-- An output option and the argument after it, whatever that is. -/
  | output (option path : String)
  /-- An output option with no argument after it. -/
  | dangling (option : String)
  /-- An argument that begins with a dash and is no option. -/
  | unknown (arg : String)
  | positional (arg : String)
deriving DecidableEq

namespace ArgGroup

/-! ### Arguments and groups -/

/-- The arguments of a group. -/
def args : ArgGroup → List String
  | verify => ["--verify"]
  | parallel => ["--parallel"]
  | output option path => [option, path]
  | dangling option => [option]
  | unknown arg => [arg]
  | positional arg => [arg]

/-- An option that takes the argument after it as a path. -/
def TakesPath (arg : String) : Prop := arg = "-o" ∨ arg = "--output"

/-- An argument takes a path if it is one of two words. -/
instance (arg : String) : Decidable (TakesPath arg) := inferInstanceAs (Decidable (_ ∨ _))

/-- An argument that begins with a dash. -/
def Dashed (arg : String) : Prop := arg.toList.head? = some '-'

/-- Whether an argument looks like an option is seen from its first character. -/
instance (arg : String) : Decidable (Dashed arg) := inferInstanceAs (Decidable (_ = _))

/-- The arguments of a group are of the kind that it says. -/
def Proper : ArgGroup → Prop
  | verify => True
  | parallel => True
  | output option _ => TakesPath option
  | dangling option => TakesPath option
  | unknown arg => Dashed arg ∧ arg ≠ "--verify" ∧ arg ≠ "--parallel" ∧ ¬TakesPath arg
  | positional arg => ¬Dashed arg

/-- Arguments read into groups: they are those of the groups, one after the other, and an output option is
left without an argument only at the end. -/
structure Reads (args : List String) (groups : List ArgGroup) : Prop where
  args_eq : groups.flatMap ArgGroup.args = args
  proper : ∀ g ∈ groups, g.Proper
  dangling_last : ∀ option, dangling option ∉ groups.dropLast

/-- The group of an argument that stands for itself. -/
def single (arg : String) : ArgGroup :=
  if arg = "--verify" then verify
  else if arg = "--parallel" then parallel
  else if Dashed arg then unknown arg
  else positional arg

/-- Reads arguments into groups, from left to right. -/
def split : List String → List ArgGroup
  | [] => []
  | [arg] => if TakesPath arg then [dangling arg] else [single arg]
  | arg :: path :: args =>
      if TakesPath arg then output arg path :: split args else single arg :: split (path :: args)

/-- An option with a path and the path after it are read as one group. -/
theorem split_of_takesPath {option : String} (h : TakesPath option) (path : String) (args : List String) :
    split (option :: path :: args) = output option path :: split args := by
  rw [split, if_pos h]

/-- Every other argument is a group by itself. -/
theorem split_single {arg : String} (h : ¬TakesPath arg) (args : List String) :
    split (arg :: args) = single arg :: split args := by
  cases args with
  | nil => exact if_neg h
  | cons path args => exact if_neg h

/-- The options that take a path look like options. -/
theorem dashed_of_takesPath {arg : String} (h : TakesPath arg) : Dashed arg := by
  rcases h with rfl | rfl <;> rfl

/-- The options that take a path are neither of the two flags. -/
theorem ne_of_takesPath {arg : String} (h : TakesPath arg) : arg ≠ "--verify" ∧ arg ≠ "--parallel" := by
  rcases h with rfl | rfl <;> decide

/-- The group of an argument that takes no path is proper, and consists of it. -/
theorem proper_single {arg : String} (h : ¬TakesPath arg) :
    (single arg).Proper ∧ (single arg).args = [arg] := by
  unfold single
  split_ifs with hverify hparallel hdashed
  · exact ⟨trivial, by rw [hverify, args]⟩
  · exact ⟨trivial, by rw [hparallel, args]⟩
  · exact ⟨⟨hdashed, hverify, hparallel, h⟩, rfl⟩
  · exact ⟨hdashed, rfl⟩

/-- An argument by itself is never read as an option whose path is missing. -/
theorem single_ne_dangling (arg option : String) : single arg ≠ dangling option := by
  unfold single
  split_ifs <;> simp

/-- A proper group is read off the front of arguments, unless it asks for one more. -/
theorem split_append {g : ArgGroup} (hproper : g.Proper) (hdangling : ∀ option, g ≠ dangling option)
    (rest : List String) : split (g.args ++ rest) = g :: split rest := by
  cases g with
  | verify => exact split_single (by decide) rest
  | parallel => exact split_single (by decide) rest
  | output option path => exact split_of_takesPath hproper path rest
  | dangling option => exact absurd rfl (hdangling option)
  | unknown arg =>
      obtain ⟨hdashed, hverify, hparallel, hpath⟩ := hproper
      refine (split_single hpath rest).trans ?_
      rw [single, if_neg hverify, if_neg hparallel, if_pos hdashed]
  | positional arg =>
      have hne : ∀ option, Dashed option → arg ≠ option := by
        rintro option hdashed rfl
        exact hproper hdashed
      refine (split_single (mt dashed_of_takesPath hproper) rest).trans ?_
      rw [single, if_neg (hne "--verify" rfl), if_neg (hne "--parallel" rfl), if_neg hproper]

namespace Reads

variable {args rest : List String} {g : ArgGroup} {groups : List ArgGroup}

/-- What follows the first group is read into the groups after it. -/
theorem tail (h : Reads args (g :: groups)) : Reads (groups.flatMap ArgGroup.args) groups where
  args_eq := rfl
  proper := (List.forall_mem_cons.1 h.proper).2
  dangling_last option hmem := by
    cases groups with
    | nil => cases hmem
    | cons next groups => exact h.dangling_last option (List.mem_cons_of_mem _ hmem)

/-- A group in front of a reading is a reading, unless it lacks the path that would follow it. -/
theorem cons (h : Reads rest groups) (hproper : g.Proper) (hdangling : ∀ option, g ≠ dangling option) :
    Reads (g.args ++ rest) (g :: groups) where
  args_eq := by rw [List.flatMap_cons, h.args_eq]
  proper := List.forall_mem_cons.2 ⟨hproper, h.proper⟩
  dangling_last option hmem := by
    cases groups with
    | nil => cases hmem
    | cons next groups =>
        rcases List.mem_cons.1 hmem with heq | hmem
        · exact hdangling option heq.symm
        · exact h.dangling_last option hmem

/-- There is one way to read arguments. -/
theorem eq_split (h : Reads args groups) : groups = split args := by
  induction groups generalizing args with
  | nil => rw [← h.args_eq, List.flatMap_nil, split]
  | cons g groups ih =>
      rw [← h.args_eq, List.flatMap_cons]
      by_cases hdangling : ∀ option, g ≠ dangling option
      · rw [split_append (h.proper g List.mem_cons_self) hdangling, ← ih h.tail]
      · obtain ⟨option, rfl⟩ : ∃ option, g = dangling option := by simpa using hdangling
        -- nothing comes after an option without its path
        cases groups with
        | cons next groups => exact absurd List.mem_cons_self (h.dangling_last option)
        | nil =>
            have hpath : TakesPath option := h.proper _ List.mem_cons_self
            rw [List.flatMap_nil, List.append_nil, ArgGroup.args, split, if_pos hpath]

end Reads

/-- Arguments can be read. -/
theorem reads_split (args : List String) : Reads args (split args) := by
  induction args using split.induct with
  | case1 => exact ⟨rfl, List.forall_mem_nil _, fun _ => List.not_mem_nil⟩
  | case2 arg h =>
      rw [split, if_pos h]
      exact ⟨rfl, List.forall_mem_singleton.2 h, fun _ => List.not_mem_nil⟩
  | case3 arg h =>
      rw [split, if_neg h]
      obtain ⟨hproper, hargs⟩ := proper_single h
      exact ⟨by simp [hargs], List.forall_mem_singleton.2 hproper, fun _ => List.not_mem_nil⟩
  | case4 arg path args h ih =>
      rw [split_of_takesPath h]
      have hproper : (output arg path).Proper := h
      exact ih.cons hproper nofun
  | case5 arg path args h ih =>
      rw [split_single h]
      obtain ⟨hproper, hargs⟩ := proper_single h
      have hcons := ih.cons hproper (single_ne_dangling arg)
      rwa [hargs] at hcons

/-- A command line has one reading: the groups that it is split into. -/
theorem reads_iff {args : List String} {groups : List ArgGroup} : Reads args groups ↔ groups = split args := by
  refine ⟨Reads.eq_split, ?_⟩
  rintro rfl
  exact reads_split args

/-! ### Offending groups -/

/-- The positional argument of a group. -/
def positional? : ArgGroup → Option String
  | positional arg => some arg
  | _ => none

/-- The output path of a group. -/
def path? : ArgGroup → Option String
  | output _ path => some path
  | _ => none

/-- The positional arguments of groups. -/
def positionals (groups : List ArgGroup) : List String := groups.filterMap positional?

/-- The output paths of groups. -/
def paths (groups : List ArgGroup) : List String := groups.filterMap path?

/-- A group offends behind the groups `before` it: it is an output option without a path, an option that is
not known, or a second positional argument. -/
inductive Offends (before : List ArgGroup) : ArgGroup → UsageError → Prop
  | dangling (option : String) : Offends before (dangling option) (.needsPath option)
  | unknown (arg : String) : Offends before (unknown arg) (.unknownOption arg)
  | second {arg : String} (h : positionals before ≠ []) :
      Offends before (positional arg) (.unexpectedArgument arg)

/-- No group offends. -/
def Clean (groups : List ArgGroup) : Prop :=
  ∀ before g after e, groups = before ++ g :: after → ¬Offends before g e

/-- The leftmost group that offends does so with the error `e`. -/
def FirstOffends (groups : List ArgGroup) (e : UsageError) : Prop :=
  ∃ before g after, groups = before ++ g :: after ∧ Clean before ∧ Offends before g e

variable {groups : List ArgGroup} {g : ArgGroup}

/-- A group offends in one of three ways: an option without its path, an unknown option or a second path. -/
theorem offends_iff {before : List ArgGroup} {e : UsageError} : Offends before g e ↔
    (∃ option, g = dangling option ∧ e = .needsPath option) ∨
      (∃ arg, g = unknown arg ∧ e = .unknownOption arg) ∨
      ∃ arg, g = positional arg ∧ positionals before ≠ [] ∧ e = .unexpectedArgument arg := by
  constructor
  · rintro (option | arg | hsecond)
    · exact .inl ⟨option, rfl, rfl⟩
    · exact .inr (.inl ⟨arg, rfl, rfl⟩)
    · exact .inr (.inr ⟨_, rfl, hsecond, rfl⟩)
  · rintro (⟨option, rfl, rfl⟩ | ⟨arg, rfl, rfl⟩ | ⟨arg, rfl, hsecond, rfl⟩)
    · exact .dangling option
    · exact .unknown arg
    · exact .second hsecond

/-- Where there are no groups, none offends. -/
theorem clean_nil : Clean [] := fun _ _ _ _ h => absurd h (by simp)

/-- Groups are clean iff all but the last are and the last does not offend after them. -/
theorem clean_concat : Clean (groups ++ [g]) ↔ Clean groups ∧ ∀ e, ¬Offends groups g e := by
  constructor
  · intro h
    refine ⟨fun before g' after e heq => h before g' (after ++ [g]) e ?_, fun e => h groups g [] e rfl⟩
    rw [heq, List.append_assoc, List.cons_append]
  · rintro ⟨hclean, hlast⟩ before g' after e heq
    rcases List.eq_nil_or_concat after with rfl | ⟨after, last, rfl⟩
    · obtain ⟨rfl, hg⟩ := List.append_inj' heq rfl
      obtain rfl := List.singleton_inj.1 hg
      exact hlast e
    · rw [List.concat_eq_append, ← List.cons_append, ← List.append_assoc] at heq
      exact hclean before g' after e (List.append_inj' heq rfl).1

/-- If a group offends, then one is the first to do so. -/
theorem clean_or_firstOffends (groups : List ArgGroup) : Clean groups ∨ ∃ e, FirstOffends groups e := by
  induction groups using List.reverseRecOn with
  | nil => exact .inl clean_nil
  | append_singleton groups g ih =>
      rcases ih with hclean | ⟨e, before, g', after, rfl, hbefore, hoffends⟩
      · by_cases hlast : ∃ e, Offends groups g e
        · obtain ⟨e, hoffends⟩ := hlast
          exact .inr ⟨e, groups, g, [], rfl, hclean, hoffends⟩
        · exact .inl (clean_concat.2 ⟨hclean, not_exists.1 hlast⟩)
      · exact .inr ⟨e, before, g', after ++ [g], by simp, hbefore, hoffends⟩

/-- The positional arguments of one group more. -/
theorem positionals_concat (groups : List ArgGroup) (g : ArgGroup) :
    positionals (groups ++ [g]) = positionals groups ++ g.positional?.toList := by
  rw [positionals, List.filterMap_append, positionals]
  cases h : g.positional? <;> simp [h]

/-- The output paths of one group more. -/
theorem paths_concat (groups : List ArgGroup) (g : ArgGroup) :
    paths (groups ++ [g]) = paths groups ++ g.path?.toList := by
  rw [paths, List.filterMap_append, paths]
  cases h : g.path? <;> simp [h]

/-- No group offends iff no path is missing, all options are known, and there is at most one positional
argument. -/
theorem clean_iff : Clean groups ↔ (∀ option, dangling option ∉ groups) ∧ (∀ arg, unknown arg ∉ groups) ∧
    (positionals groups).length ≤ 1 := by
  induction groups using List.reverseRecOn with
  | nil => simp [clean_nil, positionals]
  | append_singleton groups g ih =>
      rw [clean_concat, ih, positionals_concat]
      cases g with
      | dangling option =>
          exact iff_of_false (fun h => h.2 _ (.dangling option)) fun h => h.1 option (by simp)
      | unknown arg => exact iff_of_false (fun h => h.2 _ (.unknown arg)) fun h => h.2.1 arg (by simp)
      | positional arg =>
          simp +contextual [offends_iff, positional?, and_assoc]
      | _ => simp [offends_iff, positional?]

end ArgGroup

namespace RenameOptions

open ArgGroup

/-! ### Drafts -/

namespace Draft

/-- Reads groups from left to right. -/
def take (d : Draft) : List ArgGroup → Except UsageError Draft
  | [] => .ok d
  | .verify :: groups => take { d with verify := true } groups
  | .parallel :: groups => take { d with parallel := true } groups
  | .output _ path :: groups => take { d with output := some path } groups
  | .dangling option :: _ => .error (.needsPath option)
  | .unknown arg :: _ => .error (.unknownOption arg)
  | .positional arg :: groups =>
      if d.input.isNone then take { d with input := some arg } groups
      else .error (.unexpectedArgument arg)

/-- An argument that takes no path is read as its group. -/
theorem read_single {arg : String} (h : ¬TakesPath arg) (d : Draft) {args : List String}
    (hrest : ∀ d : Draft, d.read args = d.take (split args)) :
    d.read (arg :: args) = d.take (single arg :: split args) := by
  have hpath : ¬(arg = "-o" ∨ arg = "--output") := h
  unfold Draft.read single
  by_cases hverify : arg = "--verify"
  · rw [if_pos hverify, if_pos hverify]
    exact hrest _
  by_cases hparallel : arg = "--parallel"
  · rw [if_neg hverify, if_neg hverify, if_pos hparallel, if_pos hparallel]
    exact hrest _
  rw [if_neg hverify, if_neg hverify, if_neg hparallel, if_neg hparallel, if_neg hpath]
  by_cases hdashed : Dashed arg
  · rw [if_pos hdashed]
    exact if_pos hdashed
  · rw [if_neg hdashed, take, ← hrest]
    exact if_neg hdashed

/-- Reading arguments is reading their groups. -/
theorem read_eq_take (d : Draft) (args : List String) : d.read args = d.take (split args) := by
  induction args using split.induct generalizing d with
  | case1 => rfl
  | case2 option h =>
      obtain ⟨hverify, hparallel⟩ := ne_of_takesPath h
      rw [split, if_pos h]
      unfold Draft.read
      rw [if_neg hverify, if_neg hparallel]
      exact if_pos h
  | case3 arg h =>
      rw [split_single h]
      exact read_single h d fun _ => rfl
  | case4 option path args h ih =>
      obtain ⟨hverify, hparallel⟩ := ne_of_takesPath h
      rw [split_of_takesPath h]
      unfold Draft.read
      rw [if_neg hverify, if_neg hparallel]
      exact (if_pos h).trans (ih _)
  | case5 arg path args h ih =>
      rw [split_single h]
      exact read_single h d ih

/-- What is drafted after groups. -/
def ofGroups (groups : List ArgGroup) : Draft where
  input := (positionals groups).head?
  verify := decide (.verify ∈ groups)
  parallel := decide (.parallel ∈ groups)
  output := (paths groups).getLast?

variable {groups before : List ArgGroup} {g : ArgGroup} {e : UsageError}

/-- A group that offends ends the reading. -/
theorem take_of_offends (h : Offends before g e) (after : List ArgGroup) :
    (ofGroups before).take (g :: after) = .error e := by
  cases h with
  | dangling option => rfl
  | unknown arg => rfl
  | second h =>
      have hinput : ¬(ofGroups before).input.isNone := by simpa [ofGroups] using h
      rw [take, if_neg hinput]

/-- A group that does not offend is added to the draft. -/
theorem take_of_not_offends (h : ∀ e, ¬Offends before g e) (after : List ArgGroup) :
    (ofGroups before).take (g :: after) = (ofGroups (before ++ [g])).take after := by
  cases g with
  | dangling option => exact absurd (.dangling option) (h _)
  | unknown arg => exact absurd (.unknown arg) (h _)
  | positional arg =>
      have hnil : positionals before = [] := by
        by_contra hne
        exact h _ (.second hne)
      have hinput : (ofGroups before).input.isNone := by simp [ofGroups, hnil]
      rw [take, if_pos hinput]
      simp [ofGroups, positionals_concat, paths_concat, hnil, positional?, path?]
  | _ => simp [take, ofGroups, positionals_concat, paths_concat, positional?, path?]

/-- Groups that do not offend are all added to the draft. -/
theorem take_append (h : Clean (before ++ groups)) (after : List ArgGroup) :
    (ofGroups before).take (groups ++ after) = (ofGroups (before ++ groups)).take after := by
  induction groups generalizing before with
  | nil => rw [List.nil_append, List.append_nil]
  | cons g groups ih =>
      rw [List.cons_append, take_of_not_offends (fun e => h before g groups e rfl), ih (by simpa using h)]
      simp

/-- Clean groups are all taken, and make the options that they stand for. -/
theorem take_of_clean (h : Clean groups) : empty.take groups = .ok (ofGroups groups) := by
  have htake : (ofGroups []).take (groups ++ []) = .ok (ofGroups groups) :=
    take_append (show Clean ([] ++ groups) from h) []
  rwa [List.append_nil] at htake

/-- If there is an offence, taking the groups ends with the first one. -/
theorem take_of_firstOffends (h : FirstOffends groups e) : empty.take groups = .error e := by
  obtain ⟨before, g, after, rfl, hclean, hoffends⟩ := h
  have htake : (ofGroups []).take (before ++ g :: after) = (ofGroups before).take (g :: after) :=
    take_append (show Clean ([] ++ before) from hclean) (g :: after)
  exact htake.trans (take_of_offends hoffends after)

end Draft

/-! ### Options -/

/-- The options that groups stand for. -/
structure Fits (o : RenameOptions) (groups : List ArgGroup) : Prop where
  /-- Every output option has a path, -/
  complete : ∀ option, .dangling option ∉ groups
  /-- every option is known, -/
  known : ∀ arg, .unknown arg ∉ groups
  /-- and there is exactly one positional argument, the input. -/
  input_eq : positionals groups = [o.input]
  /-- A flag is set iff it is among the groups, -/
  verify_iff : o.verify = true ↔ .verify ∈ groups
  parallel_iff : o.parallel = true ↔ .parallel ∈ groups
  /-- and the output path is the last one. -/
  output_eq : o.output = (paths groups).getLast?

variable {groups groups' : List ArgGroup} {o : RenameOptions} {e : UsageError}

/-- Groups that fit options do not offend. -/
theorem Fits.clean (h : o.Fits groups) : Clean groups :=
  clean_iff.2 ⟨h.complete, h.known, by rw [h.input_eq, List.length_singleton]⟩

/-- Another order of the groups stands for the same options, if the order of the output paths stays. -/
theorem Fits.perm (h : o.Fits groups) (hperm : groups.Perm groups') (hpaths : paths groups' = paths groups) :
    o.Fits groups' where
  complete option := mt hperm.mem_iff.2 (h.complete option)
  known arg := mt hperm.mem_iff.2 (h.known arg)
  input_eq := by
    have hinput : (positionals groups').Perm (positionals groups) := hperm.symm.filterMap positional?
    rw [h.input_eq] at hinput
    exact List.perm_singleton.1 hinput
  verify_iff := h.verify_iff.trans hperm.mem_iff
  parallel_iff := h.parallel_iff.trans hperm.mem_iff
  output_eq := by rw [h.output_eq, hpaths]

/-- The options of a draft, which need an input. -/
theorem ofArgs_eq (args : List String) : ofArgs args = Draft.empty.take (split args) >>= fun d =>
    match d.input with
    | some input => .ok ⟨input, d.verify, d.parallel, d.output⟩
    | none => .error .missingPath := by
  rw [ofArgs, Draft.read_eq_take]
  rfl

/-- If a group of the command line offends, the first such offence is reported. -/
theorem ofArgs_of_firstOffends {args : List String} (h : FirstOffends (split args) e) :
    ofArgs args = .error e := by
  rw [ofArgs_eq, Draft.take_of_firstOffends h]
  rfl

/-- A clean command line without an input path is refused for that. -/
theorem ofArgs_of_missing {args : List String} (h : Clean (split args))
    (hinput : positionals (split args) = []) : ofArgs args = .error .missingPath := by
  rw [ofArgs_eq, Draft.take_of_clean h, Draft.ofGroups, hinput]
  rfl

/-- A command line that fits options is read as these options. -/
theorem ofArgs_of_fits {args : List String} (h : o.Fits (split args)) : ofArgs args = .ok o := by
  have hdraft : Draft.ofGroups (split args) = ⟨some o.input, o.verify, o.parallel, o.output⟩ := by
    rw [Draft.ofGroups, h.input_eq, ← h.output_eq, List.head?_cons]
    congr 1
    · exact Bool.eq_iff_iff.2 (decide_eq_true_iff.trans h.verify_iff.symm)
    · exact Bool.eq_iff_iff.2 (decide_eq_true_iff.trans h.parallel_iff.symm)
  rw [ofArgs_eq, Draft.take_of_clean h.clean, hdraft]
  rfl

/-- Arguments stand for options, or one of them is the first that offends, or nothing offends and there is no
input. -/
theorem cases_groups (groups : List ArgGroup) : (∃ o : RenameOptions, o.Fits groups) ∨
    (∃ e, FirstOffends groups e) ∨ Clean groups ∧ positionals groups = [] := by
  rcases clean_or_firstOffends groups with hclean | hoffends
  · obtain ⟨hcomplete, hknown, hlength⟩ := clean_iff.1 hclean
    rcases hinput : positionals groups with _ | ⟨input, rest⟩
    · exact .inr (.inr ⟨hclean, rfl⟩)
    · rw [hinput, List.length_cons] at hlength
      obtain rfl : rest = [] := List.eq_nil_of_length_eq_zero (by omega)
      exact .inl ⟨⟨input, decide (.verify ∈ groups), decide (.parallel ∈ groups), (paths groups).getLast?⟩,
        hcomplete, hknown, hinput, decide_eq_true_iff, decide_eq_true_iff, rfl⟩
  · exact .inr (.inl hoffends)

/-- An argument list stands for the options that its groups stand for. -/
theorem ofArgs_eq_ok_iff {args : List String} : ofArgs args = .ok o ↔ o.Fits (split args) := by
  refine ⟨fun h => ?_, ofArgs_of_fits⟩
  rcases cases_groups (split args) with ⟨o', hfits⟩ | ⟨e, hoffends⟩ | ⟨hclean, hinput⟩
  · rw [ofArgs_of_fits hfits] at h
    rwa [← Except.ok.inj h]
  · rw [ofArgs_of_firstOffends hoffends] at h
    cases h
  · rw [ofArgs_of_missing hclean hinput] at h
    cases h

/-- An argument list that stands for no options has a first group that offends, or no input. -/
theorem ofArgs_eq_error_iff {args : List String} : ofArgs args = .error e ↔
    FirstOffends (split args) e ∨ Clean (split args) ∧ positionals (split args) = [] ∧ e = .missingPath := by
  constructor
  · intro h
    rcases cases_groups (split args) with ⟨o, hfits⟩ | ⟨e', hoffends⟩ | ⟨hclean, hinput⟩
    · rw [ofArgs_of_fits hfits] at h
      cases h
    · rw [ofArgs_of_firstOffends hoffends] at h
      rw [← Except.error.inj h]
      exact .inl hoffends
    · rw [ofArgs_of_missing hclean hinput] at h
      exact .inr ⟨hclean, hinput, (Except.error.inj h).symm⟩
  · rintro (hoffends | ⟨hclean, hinput, rfl⟩)
    · exact ofArgs_of_firstOffends hoffends
    · exact ofArgs_of_missing hclean hinput

/-- Groups that stand for options, in another order, are the groups of their arguments. -/
theorem Fits.reads_perm {args : List String} (h : o.Fits groups') (hperm : (split args).Perm groups') :
    Reads (groups'.flatMap ArgGroup.args) groups' where
  args_eq := rfl
  proper g hg := (reads_split args).proper g (hperm.mem_iff.2 hg)
  dangling_last option hmem := h.complete option (List.mem_of_mem_dropLast hmem)

/-- **The rename options are a grammar, in any order.**  An argument list is read into groups in one way.  It
stands for options iff no group is wrong and exactly one is a positional argument; these are then the options
that the groups say, and the same in any other order of the groups that keeps the order of the output paths.
Otherwise the error is that of the leftmost group that offends, or, if none does, that there is no path. -/
theorem ofArgs_grammar (args : List String) :
    ∃ groups, (∀ groups', Reads args groups' ↔ groups' = groups) ∧
      (∀ o, ofArgs args = .ok o ↔ o.Fits groups) ∧
      (∀ o groups', ofArgs args = .ok o → groups.Perm groups' → paths groups' = paths groups →
        ofArgs (groups'.flatMap ArgGroup.args) = .ok o) ∧
      (∀ e, ofArgs args = .error e ↔ FirstOffends groups e ∨
        Clean groups ∧ positionals groups = [] ∧ e = .missingPath) ∧
      UsageError.missingPath.message = "missing file path" := by
  refine ⟨split args, fun _ => reads_iff, fun _ => ofArgs_eq_ok_iff, ?_, fun _ => ofArgs_eq_error_iff, rfl⟩
  intro o groups' h hperm hpaths
  have hfits : o.Fits groups' := (ofArgs_eq_ok_iff.1 h).perm hperm hpaths
  have hreads := hfits.reads_perm hperm
  rw [reads_iff.1 hreads] at hfits
  exact ofArgs_of_fits hfits

/-- The argument after an output option is its path, even if it looks like a flag. -/
example : ofArgs ["-o", "--verify", "input", "--parallel"] = .ok ⟨"input", false, true, some "--verify"⟩ := by
  decide

end RenameOptions

end Freshen
