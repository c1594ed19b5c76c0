import Mathlib
import Freshen.Proofs.Rename.Scan

/-!
# Names that are bound more than once

The check for repeated names walks over a callable, counts the names that it meets, and reports those that it
counted more than once.  It reports what is to be reported: the walk meets the names of the parameters and of
every pattern, in the order of evaluation, and counting and setting to zero what was reported finds each
repeated name once.

- `Stmt.patterns` and its companions: the patterns of `let`s and `for`s at any depth, in evaluation order.
- `Callable.boundNames`: the names that a callable binds.
- `Repeats`: which names of a row are repeated, and in which order they are told.

**Key results.** `Tally.repeats`: a tally finds the repeated names of a row; `Repeats.unique`: there is only one
way to tell them; `Callable.checkBindings_exact`: what the check accepts, and what it reports.
-/

namespace Freshen

/-! ### Patterns of a body -/

mutual

/-- The patterns that a statement binds, in evaluation order. -/
def Stmt.patterns : Stmt → List Pattern
  | .bind p _ _ _ => [p]
  | .assign _ _ _ => []
  | .eval _ _ => []
  | .ret _ _ => []
  | .choose bs b _ => Branch.patternsList bs ++ Block.patternsOption b
  | .loopWhile _ b _ => Block.patterns b
  | .loopFor p _ b _ => p :: Block.patterns b
  | .loopUntil b _ f _ => Block.patterns b ++ Block.patternsOption f
  | .block b _ => Block.patterns b
termination_by structural t => t

/-- The patterns in a block. -/
def Block.patterns : Block → List Pattern
  | ⟨stmts, _⟩ => Stmt.patternsList stmts
termination_by structural b => b

/-- The patterns in an optional block. -/
def Block.patternsOption : Option Block → List Pattern
  | none => []
  | some b => Block.patterns b
termination_by structural b => b

/-- The patterns in several statements. -/
def Stmt.patternsList : List Stmt → List Pattern
  | [] => []
  | t :: ts => Stmt.patterns t ++ Stmt.patternsList ts
termination_by structural ts => ts

/-- The patterns in the branches of a choice. -/
def Branch.patternsList : List Branch → List Pattern
  | [] => []
  | ⟨_, b⟩ :: bs => Block.patterns b ++ Branch.patternsList bs
termination_by structural bs => bs

end

/-- The names that a callable binds: those of its parameters, then those of the patterns of its `let`s and
`for`s at any depth. -/
def Callable.boundNames (c : Callable) : List Name :=
  c.params.names ++ c.body.patterns.flatMap Pattern.names

/-- An expression binds nothing. -/
@[simp] theorem Expr.boundNames_events (e : Expr) : ScopeEvent.boundNames e.events = [] :=
  ScopeEvent.boundNames_map_refer _

/-- An expression that may be missing binds nothing. -/
@[simp] theorem Expr.boundNames_eventsOption (e : Option Expr) :
    ScopeEvent.boundNames (eventsOption e) = [] := by
  cases e with
  | none => rfl
  | some e => exact e.boundNames_events

/-- A pattern binds its names, in their order. -/
@[simp] theorem Pattern.boundNames_events (p : Pattern) : ScopeEvent.boundNames p.events = p.names :=
  ScopeEvent.boundNames_map_bind _

/-- Parameters bind their names, in their order. -/
@[simp] theorem Params.boundNames_events (p : Params) : ScopeEvent.boundNames p.events = p.names :=
  ScopeEvent.boundNames_map_bind _

mutual

/-- The names bound by the events of a statement are those of its patterns. -/
theorem Stmt.boundNames_events :
    ∀ t : Stmt, ScopeEvent.boundNames t.events = t.patterns.flatMap Pattern.names
  | .bind p _ e _ => by simp [Stmt.events, Stmt.patterns]
  | .assign t v _ => by simp [Stmt.events, Stmt.patterns]
  | .eval v _ => by simp [Stmt.events, Stmt.patterns]
  | .ret v _ => by simp [Stmt.events, Stmt.patterns]
  | .choose bs b _ => by
      simp [Stmt.events, Stmt.patterns, Branch.boundNames_eventsList bs, Block.boundNames_eventsOption b]
  | .loopWhile c b _ => by simp [Stmt.events, Stmt.patterns, Block.boundNames_events b]
  | .loopFor p e b _ => by simp [Stmt.events, Stmt.patterns, Block.boundNames_events b]
  | .loopUntil b c f _ => by
      simp [Stmt.events, Stmt.patterns, Block.boundNames_innerEvents b, Block.boundNames_eventsOption f]
  | .block b _ => Block.boundNames_events b

/-- A block binds the names of the patterns in it. -/
theorem Block.boundNames_events :
    ∀ b : Block, ScopeEvent.boundNames b.events = b.patterns.flatMap Pattern.names
  | ⟨stmts, _⟩ => by simp [Block.events, Block.patterns, Stmt.boundNames_eventsList stmts]

/-- It does so too if its frame is shared. -/
theorem Block.boundNames_innerEvents :
    ∀ b : Block, ScopeEvent.boundNames b.innerEvents = b.patterns.flatMap Pattern.names
  | ⟨stmts, _⟩ => Stmt.boundNames_eventsList stmts

/-- A block that may be missing binds the names of the patterns in it. -/
theorem Block.boundNames_eventsOption : ∀ b : Option Block,
    ScopeEvent.boundNames (Block.eventsOption b) = (Block.patternsOption b).flatMap Pattern.names
  | none => rfl
  | some b => Block.boundNames_events b

/-- Statements bind the names of the patterns in them. -/
theorem Stmt.boundNames_eventsList : ∀ ts : List Stmt,
    ScopeEvent.boundNames (Stmt.eventsList ts) = (Stmt.patternsList ts).flatMap Pattern.names
  | [] => rfl
  | t :: ts => by
      simp [Stmt.eventsList, Stmt.patternsList, Stmt.boundNames_events t, Stmt.boundNames_eventsList ts]

/-- The branches of a choice bind the names of the patterns in them. -/
theorem Branch.boundNames_eventsList : ∀ bs : List Branch,
    ScopeEvent.boundNames (Branch.eventsList bs) = (Branch.patternsList bs).flatMap Pattern.names
  | [] => rfl
  | ⟨c, b⟩ :: bs => by
      simp [Branch.eventsList, Branch.patternsList, Block.boundNames_events b,
        Branch.boundNames_eventsList bs]

end

namespace Callable

/-- The names that are listed are those of the parameters and of the patterns. -/
theorem bindingNames_eq_boundNames (c : Callable) : c.bindingNames = c.boundNames := by
  rw [bindingNames_eq_sites, sites, events, ScopeEvent.boundNames_append, Params.boundNames_events,
    Block.boundNames_events, boundNames]

end Callable

/-! ### Repeated names -/

/-- `repeated` are the names that `names` holds more than once, each once, by their first places there. -/
structure Repeats (names repeated : List Name) : Prop where
  mem_iff : ∀ name, name ∈ repeated ↔ 1 < names.count name
  nodup : repeated.Nodup
  ordered : repeated.Pairwise fun a b => names.idxOf a < names.idxOf b

/-- Which names are repeated, and in which order, is known from the names. -/
theorem Repeats.unique {names repeated repeated' : List Name} (h : Repeats names repeated)
    (h' : Repeats names repeated') : repeated' = repeated := by
  have : Std.Irrefl fun a b : Name => names.idxOf a < names.idxOf b := ⟨fun _ => lt_irrefl _⟩
  have : Std.Antisymm fun a b : Name => names.idxOf a < names.idxOf b := ⟨fun _ _ h h' => absurd h h'.asymm⟩
  exact h'.ordered.eq_of_mem_iff h.ordered fun name => by rw [h.mem_iff, h'.mem_iff]

namespace Tally

/-- After names were counted, each count has grown by the number of times that the name occurs. -/
theorem getD_foldl (names : List Name) (t : Tally) (name : Name) :
    (names.foldl (fun t name => t.insert name (t.getD name 0 + 1)) t).getD name 0 =
      t.getD name 0 + names.count name := by
  induction names generalizing t with
  | nil => rfl
  | cons first names ih =>
      rw [List.foldl_cons, ih, Std.TreeMap.getD_insert, List.count_cons]
      by_cases h : first = name
      · simp [h, Nat.add_right_comm, Nat.add_assoc]
      · simp [h]

/-- A tally counts. -/
theorem getD_ofNames (names : List Name) (name : Name) : (ofNames names).getD name 0 = names.count name := by
  rw [ofNames, getD_foldl, Std.TreeMap.getD_emptyc, Nat.zero_add]

/-- To set a count to zero leaves those of the other names. -/
theorem getD_insert_zero (t : Tally) (name other : Name) :
    (t.insert name 0).getD other 0 = if other = name then 0 else t.getD other 0 := by
  rw [Std.TreeMap.getD_insert]
  simp only [Std.LawfulEqOrd.compare_eq_iff_eq, eq_comm (a := other)]

/-- Reported are the names of the row that the tally holds more than once. -/
theorem mem_repeated {t : Tally} {names : List Name} {name : Name} :
    name ∈ t.repeated names ↔ name ∈ names ∧ 1 < t.getD name 0 := by
  induction names generalizing t with
  | nil => simp [repeated]
  | cons first names ih =>
      rw [repeated, List.mem_cons]
      rcases eq_or_ne name first with rfl | hne
      · split
        · simp_all
        · rw [ih]
          simp_all
      · rw [or_iff_right hne]
        split
        · rw [List.mem_cons, or_iff_right hne, ih, getD_insert_zero, if_neg hne]
        · exact ih

/-- Names are reported by their first places in the row. -/
theorem pairwise_repeated (t : Tally) (names : List Name) :
    (t.repeated names).Pairwise fun a b => names.idxOf a < names.idxOf b := by
  induction names generalizing t with
  | nil => exact .nil
  | cons first names ih =>
      -- what is reported after the first place is another name than the one there
      have hlater : ∀ t : Tally, ¬1 < t.getD first 0 →
          (∀ name ∈ t.repeated names, name ≠ first) ∧
          (t.repeated names).Pairwise fun a b => (first :: names).idxOf a < (first :: names).idxOf b := by
        intro t hfirst
        have hne : ∀ name ∈ t.repeated names, name ≠ first := by
          rintro name hname rfl
          exact hfirst (mem_repeated.1 hname).2
        refine ⟨hne, (ih t).imp_of_mem fun ha hb hlt => ?_⟩
        rw [List.idxOf_cons_ne _ (hne _ ha).symm, List.idxOf_cons_ne _ (hne _ hb).symm]
        exact Nat.succ_lt_succ hlt
      rw [repeated]
      split
      case isTrue =>
        obtain ⟨hne, hpairwise⟩ := hlater (t.insert first 0) (by simp)
        refine .cons (fun name hname => ?_) hpairwise
        rw [List.idxOf_cons_self, List.idxOf_cons_ne _ (hne name hname).symm]
        exact Nat.succ_pos _
      case isFalse hfirst => exact (hlater t hfirst).2

/-- Counting, and setting to zero what was reported, finds the repeated names. -/
theorem repeats (names : List Name) : Repeats names ((ofNames names).repeated names) where
  mem_iff name := by
    rw [mem_repeated, getD_ofNames]
    exact and_iff_right_of_imp fun hcount => List.count_pos_iff.1 (Nat.zero_lt_of_lt hcount)
  nodup := (pairwise_repeated _ names).imp fun hlt heq =>
    hlt.ne (congrArg (names.idxOf ·) heq)
  ordered := pairwise_repeated _ names

end Tally

/-- No name is repeated iff the names are all different. -/
theorem Repeats.eq_nil_iff {names duplicates : List Name} (h : Repeats names duplicates) :
    duplicates = [] ↔ names.Nodup := by
  simp only [List.eq_nil_iff_forall_not_mem, h.mem_iff, Nat.not_lt, List.nodup_iff_count_le_one]

/-! ### The check -/

namespace Callable

/-- The check reports the repeated names of the listed ones. -/
theorem repeats_duplicateBindings (c : Callable) : Repeats c.bindingNames c.duplicateBindings :=
  Tally.repeats c.bindingNames

/-- The check succeeds iff there is no duplicate, and fails with all of them otherwise. -/
theorem checkBindings_eq (c : Callable) : c.checkBindings =
    if c.duplicateBindings = [] then .ok () else .error ⟨c.name, c.duplicateBindings⟩ := by
  rw [checkBindings]
  cases c.duplicateBindings <;> rfl

/-- The check succeeds iff no name is bound twice. -/
theorem checkBindings_eq_ok_iff {c : Callable} : c.checkBindings = .ok () ↔ c.bindingNames.Nodup := by
  rw [← c.repeats_duplicateBindings.eq_nil_iff, checkBindings_eq]
  split
  case isTrue h => exact iff_of_true rfl h
  case isFalse h => exact iff_of_false nofun h

/-- **The check for repeated names is exact.**  The names that it looks at are those of the parameters and then
those of the patterns in the body, in the order of evaluation.  It accepts iff these are all different.
Otherwise it names the callable and the repeated names, each once and by their first places. -/
theorem checkBindings_exact (c : Callable) :
    c.bindingNames = c.boundNames ∧ (c.checkBindings = .ok () ↔ c.boundNames.Nodup) ∧
      ∀ e, c.checkBindings = .error e ↔
        ¬c.boundNames.Nodup ∧ e.callable = c.name ∧ Repeats c.boundNames e.duplicates := by
  rw [← bindingNames_eq_boundNames]
  refine ⟨rfl, checkBindings_eq_ok_iff, fun e => ?_⟩
  have hrepeats := c.repeats_duplicateBindings
  rw [← hrepeats.eq_nil_iff, checkBindings_eq]
  constructor
  · intro h
    split at h
    case isTrue => cases h
    case isFalse hne =>
      obtain rfl := Except.error.inj h
      exact ⟨hne, rfl, hrepeats⟩
  · rintro ⟨hne, hname, h⟩
    rw [if_neg hne, ← hname, ← hrepeats.unique h]

end Callable

end Freshen
