import Mathlib
import Freshen.Proofs.Naming.Allocation
import Freshen.Proofs.Rename.Replay

/-!
# Contexts under calls

What a context answers after a reset and any row of calls, told from the calls and their answers alone. The
calls come in any order, and a call that fails does not end the row.

- `ContextCall`, `Context.afterCalls`: calls, and the context that a row of them leaves.
- `ContextCall.openFrames`: how many frames are open, counted from the calls.
- `Context.generated`: the names that the declarations among the calls generate, one each.
- `ContextCall.InView`: a declaration was made in a frame that is still open; `ContextCall.Refers`: the latest
  one of a name in the innermost frame that has one.

**Key result.** `Renaming.describe_afterReset`: what each call answers, and what the context holds, in the words
of `ContextCall.Describe`.
-/

namespace Freshen

/-- A call on a context. -/
inductive ContextCall where
  | declare (name : Name)
  | resolve (name : Name)
  | enter
  | exit
  | share
  | takeShared
deriving DecidableEq

namespace Renaming

variable {α : Type}

/-- What a computation answers on a context, or why it fails. -/
def outcome (m : Renaming α) (c : Context) : Except ScopeError α := (m.run.run c).1

/-- The context that a computation leaves, also where it fails. -/
def left (m : Renaming α) (c : Context) : Context := (m.run.run c).2

/-- A declaration takes the name that it generates also where no frame is open, and then fails. -/
theorem run_declare (name : Name) (c : Context) : (declare name).run.run c =
    (if c.scopes.frames = [] then .error (.underflow "bind name")
      else .ok (c.registry.generate name).1, c.step (.bind name)) := by
  by_cases h : c.scopes.frames = []
  · obtain ⟨registry, ⟨frames⟩, sharesNext, unresolved⟩ := c
    obtain rfl : frames = [] := h
    rfl
  · rw [if_neg h]
    exact yields_declare h name

/-- An exit fails where no frame is open, and does the same to the context as the event. -/
theorem run_exit (c : Context) : exit.run.run c =
    (if c.scopes.frames = [] then .error (.underflow "exit scope") else .ok (), c.step .exit) := by
  by_cases h : c.scopes.frames = []
  · obtain ⟨registry, ⟨frames⟩, sharesNext, unresolved⟩ := c
    obtain rfl : frames = [] := h
    rfl
  · rw [if_neg h]
    exact yields_exit h

end Renaming

/-! ### Rows of calls -/

namespace ContextCall

/-- The context that a call leaves, also where it fails. -/
def perform (c : Context) : ContextCall → Context
  | declare name => (Renaming.declare name).left c
  | resolve name => (Renaming.resolve name).left c
  | enter => Renaming.enter.left c
  | exit => Renaming.exit.left c
  | share => Renaming.share.left c
  | takeShared => Renaming.takeShared.left c

/-- A declaration leaves the context that binding the name leaves, also where it fails. -/
theorem perform_declare (c : Context) (name : Name) : (declare name).perform c = c.step (.bind name) :=
  congrArg Prod.snd (Renaming.run_declare name c)

/-- To resolve a name leaves the context that referring to it leaves. -/
theorem perform_resolve (c : Context) (name : Name) : (resolve name).perform c = c.step (.refer name) :=
  congrArg Prod.snd (Renaming.yields_resolve c name)

/-- To enter a frame leaves the context that the event leaves. -/
theorem perform_enter (c : Context) : enter.perform c = c.step .enter := rfl

/-- To exit a frame leaves the context that the event leaves, also where it fails. -/
theorem perform_exit (c : Context) : exit.perform c = c.step .exit :=
  congrArg Prod.snd (Renaming.run_exit c)

/-- To ask for a shared frame changes the flag and nothing else. -/
theorem perform_share (c : Context) : share.perform c = { c with sharesNext := true } := rfl

/-- To take the flag clears it and changes nothing else. -/
theorem perform_takeShared (c : Context) : takeShared.perform c = { c with sharesNext := false } := rfl

end ContextCall

namespace Context

/-- The context after a row of calls. -/
def afterCalls (c : Context) (calls : List ContextCall) : Context := calls.foldl ContextCall.perform c

/-- The context after a reset in which the names `reserved` are taken, and then a row of calls. -/
def afterReset (c : Context) (reserved : List Name) (calls : List ContextCall) : Context :=
  ((Renaming.reset reserved).left c).afterCalls calls

/-- The last of a row of calls is performed on what the others leave. -/
theorem afterCalls_concat (c : Context) (calls : List ContextCall) (call : ContextCall) :
    c.afterCalls (calls ++ [call]) = call.perform (c.afterCalls calls) := List.foldl_append

end Context

/-! ### Open frames -/

namespace ContextCall

/-- How a call changes the number of open frames. -/
def reframe (frames : Nat) : ContextCall → Nat
  | enter => frames + 1
  | exit => frames - 1
  | _ => frames

/-- The number of frames that are open after calls, from the root frame on. -/
def openFrames (calls : List ContextCall) : Nat := calls.foldl reframe 1

/-- The last of a row of calls changes the number of frames that the others leave. -/
theorem openFrames_concat (calls : List ContextCall) (call : ContextCall) :
    openFrames (calls ++ [call]) = reframe (openFrames calls) call := List.foldl_append

/-- A call changes the number of frames as it says. -/
theorem length_frames_perform (c : Context) (call : ContextCall) :
    (call.perform c).scopes.frames.length = reframe c.scopes.frames.length call := by
  cases call with
  | declare name =>
      rw [perform_declare]
      exact List.length_modifyHead
  | resolve name =>
      rw [perform_resolve, Context.step]
      split <;> rfl
  | exit =>
      rw [perform_exit]
      exact List.length_tail
  | _ => rfl

/-- The number of frames is known from the calls. -/
theorem length_frames (reserved : List Name) (calls : List ContextCall) :
    ((Context.start reserved).afterCalls calls).scopes.frames.length = openFrames calls := by
  induction calls using List.reverseRecOn with
  | nil => rfl
  | append_singleton calls call ih =>
      rw [Context.afterCalls_concat, length_frames_perform, ih, openFrames_concat]

/-- Whether no frame is left is known from the calls. -/
theorem frames_eq_nil_iff (reserved : List Name) (calls : List ContextCall) :
    ((Context.start reserved).afterCalls calls).scopes.frames = [] ↔ openFrames calls = 0 := by
  rw [← length_frames reserved calls, List.length_eq_zero_iff]

/-- A declaration fails where no frame is open, and answers with the name that it generates elsewhere. -/
theorem outcome_declare (reserved : List Name) (calls : List ContextCall) (name : Name) :
    (Renaming.declare name).outcome ((Context.start reserved).afterCalls calls) =
      if openFrames calls = 0 then .error (.underflow "bind name")
      else .ok (((Context.start reserved).afterCalls calls).registry.generate name).1 := by
  unfold Renaming.outcome
  simp only [Renaming.run_declare, frames_eq_nil_iff]

/-- An exit fails iff the calls before it have left no frame. -/
theorem outcome_exit (reserved : List Name) (calls : List ContextCall) :
    Renaming.exit.outcome ((Context.start reserved).afterCalls calls) =
      if openFrames calls = 0 then .error (.underflow "exit scope") else .ok () := by
  unfold Renaming.outcome
  simp only [Renaming.run_exit, frames_eq_nil_iff]

end ContextCall

/-! ### Generated names -/

/-- The names that the declarations among the calls generate, one after the other. -/
def Context.generated : Context → List ContextCall → List Name
  | _, [] => []
  | c, .declare name :: calls =>
      (c.registry.generate name).1 :: generated (ContextCall.perform c (.declare name)) calls
  | c, call :: calls => generated (call.perform c) calls

namespace ContextCall

/-- The name that a call declares. -/
def declared? : ContextCall → Option Name
  | declare name => some name
  | _ => none

/-- Only a declaration changes what is taken. -/
theorem registry_perform {call : ContextCall} (hcall : call.declared? = none) (c : Context) :
    (call.perform c).registry = c.registry := by
  cases call with
  | declare name => cases hcall
  | resolve name =>
      rw [perform_resolve, Context.step]
      split <;> rfl
  | exit => rw [perform_exit]; rfl
  | _ => rfl

/-- A call that declares nothing generates no name. -/
theorem generated_cons {call : ContextCall} (hcall : call.declared? = none) (c : Context)
    (calls : List ContextCall) : c.generated (call :: calls) = (call.perform c).generated calls := by
  cases call with
  | declare name => cases hcall
  | _ => rfl

end ContextCall

namespace Context

variable {c : Context} {taken : List Name}

/-- The names that two rows of calls generate are those of the first and then those of the second. -/
theorem generated_append (c : Context) (calls more : List ContextCall) :
    c.generated (calls ++ more) = c.generated calls ++ (c.afterCalls calls).generated more := by
  induction calls generalizing c with
  | nil => rfl
  | cons call calls ih =>
      cases call with
      | declare name => exact congrArg (_ :: ·) (ih _)
      | _ => exact ih _

/-- Declarations are requests for names. -/
theorem allocates_generated (h : c.registry.Holds taken) (calls : List ContextCall) :
    Allocates taken (calls.filterMap ContextCall.declared?) (c.generated calls) := by
  induction calls generalizing c taken with
  | nil => exact .nil
  | cons call calls ih =>
      cases call with
      | declare name =>
          change Allocates taken (name :: calls.filterMap ContextCall.declared?) _
          refine .cons (fun j hj => ?_) ?_ (ih ?_)
          · exact (h _).1 (Registry.mem_tagged_of_lt_freeCounter hj)
          · rw [← h, Registry.not_contains_tagged_freeCounter]
            exact Bool.false_ne_true
          · rw [ContextCall.perform_declare]
            exact h.reserve _
      | _ =>
          rw [List.filterMap_cons_none rfl, ContextCall.generated_cons rfl]
          exact ih (by rwa [ContextCall.registry_perform rfl])

/-- What is taken after calls was taken before or is generated by them. -/
theorem contains_afterCalls (c : Context) (calls : List ContextCall) (name : Name) :
    (c.afterCalls calls).registry.contains name ↔ c.registry.contains name ∨ name ∈ c.generated calls := by
  induction calls generalizing c with
  | nil => simp [afterCalls, generated]
  | cons call calls ih =>
      refine (ih (call.perform c)).trans ?_
      cases call with
      | declare other =>
          rw [ContextCall.perform_declare, generated, List.mem_cons, ContextCall.perform_declare, ← or_assoc]
          refine or_congr_left ?_
          exact (Registry.contains_reserve _ _ _).trans or_comm
      | _ =>
          rw [ContextCall.registry_perform rfl, ContextCall.generated_cons rfl]

end Context

/-! ### Declarations in view -/

namespace ContextCall

/-- After a reset and `calls`, the declaration that is call number `place` is in view: it gave the name `new`
to `name`, in frame number `level` from the outside, and this frame has been open ever since. -/
structure InView (reserved : List Name) (calls : List ContextCall) (level place : Nat) (name new : Name) :
    Prop where
  call_eq : calls[place]? = some (.declare name)
  outcome_eq : (Renaming.declare name).outcome ((Context.start reserved).afterCalls (calls.take place)) =
    .ok new
  level_eq : openFrames (calls.take place) = level
  stays_open : ∀ i, place < i → i ≤ calls.length → level ≤ openFrames (calls.take i)

/-- `new` is the name that the latest declaration of `name` in view gave, of those in the innermost frame that
has one. -/
def Refers (reserved : List Name) (calls : List ContextCall) (name new : Name) : Prop :=
  ∃ level place, InView reserved calls level place name new ∧
    ∀ level' place' new', InView reserved calls level' place' name new' →
      level' < level ∨ level' = level ∧ place' ≤ place

variable {reserved : List Name} {calls : List ContextCall} {call : ContextCall}
  {level level' place place' : Nat} {name name' new new' : Name}

namespace InView

/-- A declaration in view is one of the calls. -/
theorem lt_length (h : InView reserved calls level place name new) : place < calls.length :=
  (List.getElem?_eq_some_iff.1 h.call_eq).1

/-- What was declared, and as what, is known from the number of the call. -/
theorem unique (h : InView reserved calls level place name new)
    (h' : InView reserved calls level' place name' new') : level = level' ∧ name = name' ∧ new = new' := by
  obtain rfl := ContextCall.declare.inj (Option.some.inj (h.call_eq.symm.trans h'.call_eq))
  exact ⟨h.level_eq.symm.trans h'.level_eq, rfl, Except.ok.inj (h.outcome_eq.symm.trans h'.outcome_eq)⟩

/-- The frame of a declaration in view is one of those that are open. -/
theorem level_le (h : InView reserved calls level place name new) : level ≤ openFrames calls := by
  have hopen := h.stays_open calls.length h.lt_length le_rfl
  rwa [List.take_length] at hopen

/-- A frame was open at the declaration. -/
theorem level_pos (h : InView reserved calls level place name new) : 0 < level := by
  by_contra hlevel
  have houtcome := h.outcome_eq
  rw [outcome_declare, h.level_eq, if_pos (Nat.eq_zero_of_not_pos hlevel)] at houtcome
  cases houtcome

end InView

/-- What is in view after one more call: what was in view before, unless its frame was closed, and what the
call declares. -/
theorem inView_concat : InView reserved (calls ++ [call]) level place name new ↔
    InView reserved calls level place name new ∧ level ≤ openFrames (calls ++ [call]) ∨
      call = .declare name ∧ place = calls.length ∧ level = openFrames calls ∧
        (Renaming.declare name).outcome ((Context.start reserved).afterCalls calls) = .ok new := by
  have htake : ∀ i ≤ calls.length, (calls ++ [call]).take i = calls.take i := fun i hi =>
    List.take_append_of_le_length hi
  constructor
  · intro h
    have hlt := h.lt_length
    rw [List.length_append, List.length_singleton] at hlt
    -- the declaration is one of `calls`, whose beginnings are those of the longer row, or it is the last call
    rcases Nat.lt_succ_iff_lt_or_eq.1 hlt with hlt | rfl
    · refine .inl ⟨⟨?_, ?_, ?_, fun i hi hle => ?_⟩, h.level_le⟩
      · rw [← h.call_eq, List.getElem?_append_left hlt]
      · rw [← h.outcome_eq, htake _ hlt.le]
      · rw [← h.level_eq, htake _ hlt.le]
      · rw [← htake i hle]
        exact h.stays_open i hi (by rw [List.length_append]; omega)
    · have hcall := h.call_eq
      rw [List.getElem?_concat_length] at hcall
      have houtcome := h.outcome_eq
      have hlevel := h.level_eq
      rw [htake _ le_rfl, List.take_length] at houtcome hlevel
      exact .inr ⟨Option.some.inj hcall, rfl, hlevel.symm, houtcome⟩
  · rintro (⟨h, hopen⟩ | ⟨rfl, rfl, rfl, houtcome⟩)
    · have hlt := h.lt_length
      refine ⟨?_, ?_, ?_, fun i hi hle => ?_⟩
      · rw [List.getElem?_append_left hlt, h.call_eq]
      · rw [htake _ hlt.le, h.outcome_eq]
      · rw [htake _ hlt.le, h.level_eq]
      · rw [List.length_append, List.length_singleton] at hle
        rcases Nat.le_succ_iff.1 hle with hle | rfl
        · rw [htake i hle]
          exact h.stays_open i hi hle
        · rwa [List.take_of_length_le (by simp)]
    · refine ⟨List.getElem?_concat_length, ?_, ?_, fun i hi hle => ?_⟩
      · rwa [htake _ le_rfl, List.take_length]
      · rw [htake _ le_rfl, List.take_length]
      · rw [List.length_append, List.length_singleton] at hle
        obtain rfl : i = calls.length + 1 := by omega
        rw [List.take_of_length_le (by simp), openFrames_concat]
        exact le_rfl

/-! ### Frames and declarations in view -/

/-- What a frame answers for a name: the latest declaration of the name in view at this level, or nothing if
there is none. -/
def Shows (reserved : List Name) (calls : List ContextCall) (level : Nat) (name : Name) : Option Name → Prop
  | some new => ∃ place, InView reserved calls level place name new ∧
      ∀ place' new', InView reserved calls level place' name new' → place' ≤ place
  | none => ∀ place new, ¬InView reserved calls level place name new

/-- Every frame answers for the names as the declarations in view at its level say. -/
def Tracked (reserved : List Name) (calls : List ContextCall) : List Frame → Prop
  | [] => True
  | frame :: frames =>
      (∀ name, Shows reserved calls (frames.length + 1) name frame[name]?) ∧ Tracked reserved calls frames

/-- What a frame answers depends on the declarations in view only. -/
theorem Shows.congr {calls' : List ContextCall} {answer : Option Name}
    (h : ∀ place new,
      InView reserved calls' level place name new ↔ InView reserved calls level place name new)
    (hshows : Shows reserved calls level name answer) : Shows reserved calls' level name answer := by
  cases answer with
  | none => exact fun place new hview => hshows place new ((h place new).1 hview)
  | some new =>
      obtain ⟨place, hview, hlatest⟩ := hshows
      exact ⟨place, (h place new).2 hview, fun place' new' hview' =>
        hlatest place' new' ((h place' new').1 hview')⟩

/-- Frames depend on what is in view at their levels only. -/
theorem Tracked.congr {calls' : List ContextCall} {frames : List Frame}
    (h : ∀ level ≤ frames.length, ∀ place name new,
      InView reserved calls' level place name new ↔ InView reserved calls level place name new)
    (htracked : Tracked reserved calls frames) : Tracked reserved calls' frames := by
  induction frames with
  | nil => trivial
  | cons frame frames ih =>
      obtain ⟨htop, hframes⟩ := htracked
      refine ⟨fun name => (htop name).congr fun place new => h _ le_rfl place name new, ih ?_ hframes⟩
      intro level hlevel
      exact h level (hlevel.trans (Nat.le_succ _))

/-- A call that declares nothing leaves in view what is in a frame that stays open. -/
theorem inView_concat_of_declared {call : ContextCall} (hcall : call.declared? = none)
    (hlevel : level ≤ openFrames (calls ++ [call])) :
    InView reserved (calls ++ [call]) level place name new ↔ InView reserved calls level place name new := by
  rw [inView_concat, and_iff_left hlevel]
  refine or_iff_left ?_
  rintro ⟨rfl, -⟩
  cases hcall

/-- A declaration in an open frame is shown there, and other names are shown as before. -/
theorem Shows.declare {frame : Frame} (hopen : openFrames calls = level) (hlevel : level ≠ 0)
    (h : ∀ name, Shows reserved calls level name frame[name]?) (other : Name) :
    Shows reserved (calls ++ [.declare name]) level other
      (frame.insert name (((Context.start reserved).afterCalls calls).registry.generate name).1)[other]? := by
  have houtcome := outcome_declare reserved calls name
  rw [if_neg (hopen ▸ hlevel)] at houtcome
  have hstill : level ≤ openFrames (calls ++ [.declare name]) := by
    rw [openFrames_concat, hopen]
    exact le_rfl
  rw [Std.TreeMap.getElem?_insert]
  by_cases heq : name = other
  · subst heq
    rw [if_pos Std.ReflCmp.compare_self]
    have hnew := inView_concat.2 (.inr ⟨rfl, rfl, hopen.symm, houtcome⟩)
    refine ⟨calls.length, hnew, fun place' new' hview => ?_⟩
    have hlt := hview.lt_length
    rw [List.length_append, List.length_singleton] at hlt
    exact Nat.le_of_lt_succ hlt
  · rw [if_neg (by simpa using heq)]
    refine (h other).congr fun place new => ?_
    rw [inView_concat, and_iff_left hstill]
    refine or_iff_left ?_
    rintro ⟨hcall, -⟩
    exact heq (ContextCall.declare.inj hcall)

/-- In a frame that opens nothing is in view. -/
theorem Tracked.enter {frames : List Frame} (h : Tracked reserved calls frames)
    (hlength : frames.length = openFrames calls) : Tracked reserved calls ({} :: frames) := by
  refine ⟨fun name => ?_, h⟩
  rw [Std.TreeMap.getElem?_emptyc]
  intro place new hview
  exact absurd hview.level_le (by omega)

/-- Without the innermost frame, the others still answer as they did. -/
theorem Tracked.tail {frames : List Frame} (h : Tracked reserved calls frames) :
    Tracked reserved calls frames.tail := by
  cases frames with
  | nil => exact h
  | cons frame frames => exact h.2

/-- After a declaration, the innermost frame answers with the generated name, and the others as before. -/
theorem Tracked.declare {frames : List Frame} (h : Tracked reserved calls frames)
    (hlength : frames.length = openFrames calls) (name : Name) :
    Tracked reserved (calls ++ [.declare name]) (frames.modifyHead
      (·.insert name (((Context.start reserved).afterCalls calls).registry.generate name).1)) := by
  cases frames with
  | nil => trivial
  | cons frame frames =>
      obtain ⟨htop, hframes⟩ := h
      rw [List.length_cons] at hlength
      refine ⟨Shows.declare hlength.symm (Nat.succ_ne_zero _) htop, hframes.congr ?_⟩
      intro level hlevel place other new
      -- the declaration is in the frame at the top
      have hstill : level ≤ openFrames (calls ++ [.declare name]) := by
        rw [openFrames_concat]
        change level ≤ openFrames calls
        omega
      rw [inView_concat, and_iff_left hstill]
      refine or_iff_left ?_
      rintro ⟨-, -, rfl, -⟩
      omega

/-- Each frame that calls leave open answers as the declarations in view at its level say. -/
theorem tracked_afterCalls (reserved : List Name) (calls : List ContextCall) :
    Tracked reserved calls ((Context.start reserved).afterCalls calls).scopes.frames := by
  induction calls using List.reverseRecOn with
  | nil =>
      refine ⟨fun name => ?_, trivial⟩
      rw [Std.TreeMap.getElem?_emptyc]
      exact fun place new hview => absurd hview.lt_length (Nat.not_lt_zero _)
  | append_singleton calls call ih =>
      have hlength := length_frames reserved calls
      have hlength' := length_frames reserved (calls ++ [call])
      rw [Context.afterCalls_concat] at hlength' ⊢
      -- a call that declares nothing leaves frames in which the same is in view as before
      have hother : call.declared? = none →
          Tracked reserved calls (call.perform ((Context.start reserved).afterCalls calls)).scopes.frames →
          Tracked reserved (calls ++ [call])
            (call.perform ((Context.start reserved).afterCalls calls)).scopes.frames := by
        intro hcall htracked
        refine htracked.congr fun level hlevel place name new => ?_
        exact inView_concat_of_declared hcall (hlevel.trans_eq hlength')
      cases call with
      | declare name =>
          rw [perform_declare]
          exact ih.declare hlength name
      | resolve name =>
          refine hother rfl ?_
          rw [perform_resolve, Context.step]
          split <;> exact ih
      | enter => exact hother rfl (ih.enter hlength)
      | exit =>
          refine hother rfl ?_
          rw [perform_exit]
          exact ih.tail
      | share => exact hother rfl ih
      | takeShared => exact hother rfl ih

/-- The innermost frame that answers for a name decides. -/
theorem Tracked.findSome? {frames : List Frame} (h : Tracked reserved calls frames) (name : Name) :
    match frames.findSome? (·[name]?) with
    | some new => ∃ level place, InView reserved calls level place name new ∧
        ∀ level' place' new', level' ≤ frames.length → InView reserved calls level' place' name new' →
          level' < level ∨ level' = level ∧ place' ≤ place
    | none => ∀ level ≤ frames.length, ∀ place new, ¬InView reserved calls level place name new := by
  induction frames with
  | nil => exact fun level hlevel place new hview => absurd hview.level_pos (Nat.not_lt.2 hlevel)
  | cons frame frames ih =>
      obtain ⟨htop, hframes⟩ := h
      have hshows := htop name
      rw [List.findSome?_cons]
      cases hanswer : frame[name]? with
      | some new =>
          rw [hanswer] at hshows
          obtain ⟨place, hview, hlatest⟩ := hshows
          refine ⟨frames.length + 1, place, hview, fun level' place' new' hlevel' hview' => ?_⟩
          rcases hlevel'.lt_or_eq with hlt | rfl
          · exact .inl hlt
          · exact .inr ⟨rfl, hlatest place' new' hview'⟩
      | none =>
          rw [hanswer] at hshows
          have hrest := ih hframes
          -- at the level of this frame nothing is in view
          have hbelow : ∀ {level place new}, level ≤ frames.length + 1 →
              InView reserved calls level place name new → level ≤ frames.length := by
            intro level place new hlevel hview
            refine Nat.le_of_lt_succ (hlevel.lt_of_ne ?_)
            rintro rfl
            exact hshows place new hview
          dsimp only
          split at hrest
          · next new heq =>
            rw [heq]
            obtain ⟨level, place, hview, hlatest⟩ := hrest
            exact ⟨level, place, hview, fun level' place' new' hlevel' hview' =>
              hlatest level' place' new' (hbelow hlevel' hview') hview'⟩
          · next heq =>
            rw [heq]
            exact fun level hlevel place new hview => hrest level (hbelow hlevel hview) place new hview

/-- A name is replaced as the declarations in view say. -/
theorem lookup_eq_some_iff : ((Context.start reserved).afterCalls calls).scopes.lookup name = some new ↔
    Refers reserved calls name new := by
  have hfound := (tracked_afterCalls reserved calls).findSome? name
  rw [length_frames] at hfound
  change match ((Context.start reserved).afterCalls calls).scopes.lookup name with | some _ => _ | none => _
    at hfound
  constructor
  · intro h
    rw [h] at hfound
    obtain ⟨level, place, hview, hlatest⟩ := hfound
    exact ⟨level, place, hview, fun level' place' new' hview' =>
      hlatest level' place' new' hview'.level_le hview'⟩
  · rintro ⟨level, place, hview, hlatest⟩
    split at hfound
    · next other hlookup =>
      obtain ⟨level', place', hview', hlatest'⟩ := hfound
      -- of two declarations each is the latest one
      have hle := hlatest level' place' other hview'
      have hge := hlatest' level place new hview.level_le hview
      obtain rfl : place = place' := by omega
      rw [hlookup, (hview'.unique hview).2.2]
    · exact absurd hview (hfound level hview.level_le place new)

/-- A name has no replacement iff no declaration of it is in view. -/
theorem lookup_eq_none_iff : ((Context.start reserved).afterCalls calls).scopes.lookup name = none ↔
    ∀ level place new, ¬InView reserved calls level place name new := by
  constructor
  · intro h level place new hview
    have hfound := (tracked_afterCalls reserved calls).findSome? name
    change match ((Context.start reserved).afterCalls calls).scopes.lookup name with | some _ => _ | none => _
      at hfound
    rw [h, length_frames] at hfound
    exact hfound level hview.level_le place new hview
  · intro h
    rw [Option.eq_none_iff_forall_ne_some]
    intro new hlookup
    obtain ⟨level, place, hview, -⟩ := lookup_eq_some_iff.1 hlookup
    exact h level place new hview

/-! ### Names that tell declarations apart -/

/-- What is generated at a declaration comes after what was generated before it. -/
theorem generated_eq_of_declare (reserved : List Name) (hcall : calls[place]? = some (.declare name)) :
    ∃ later, (Context.start reserved).generated calls =
      (Context.start reserved).generated (calls.take place) ++
        (((Context.start reserved).afterCalls (calls.take place)).registry.generate name).1 :: later := by
  obtain ⟨hlt, hget⟩ := List.getElem?_eq_some_iff.1 hcall
  have hsplit : calls = calls.take place ++ .declare name :: calls.drop (place + 1) := by
    rw [← hget, List.getElem_cons_drop, List.take_append_drop]
  exact ⟨_, (congrArg (Context.start reserved).generated hsplit).trans (Context.generated_append _ _ _)⟩

/-- A declaration gave the name that the registry generates there. -/
theorem InView.new_eq (h : InView reserved calls level place name new) :
    new = (((Context.start reserved).afterCalls (calls.take place)).registry.generate name).1 := by
  have houtcome := h.outcome_eq
  rw [outcome_declare, h.level_eq, if_neg h.level_pos.ne'] at houtcome
  exact (Except.ok.inj houtcome).symm

/-- The names that declarations generate are all different. -/
theorem generated_nodup (reserved : List Name) (calls : List ContextCall) :
    ((Context.start reserved).generated calls).Nodup :=
  (Context.allocates_generated (Registry.holds_reserveAll reserved) calls).nodup

/-- A later declaration gives another name. -/
theorem InView.new_ne (h : InView reserved calls level place name new)
    (h' : InView reserved calls level' place' name' new') (hlt : place < place') : new ≠ new' := by
  obtain ⟨later, hgenerated⟩ := generated_eq_of_declare reserved h'.call_eq
  -- the earlier one is among the calls before the later one
  have hbefore : (calls.take place')[place]? = some (.declare name) := by
    rw [List.getElem?_take_of_lt hlt, h.call_eq]
  obtain ⟨between, hearlier⟩ := generated_eq_of_declare reserved hbefore
  rw [List.take_take, Nat.min_eq_left hlt.le, ← h.new_eq] at hearlier
  have hnodup := generated_nodup reserved calls
  rw [hgenerated, ← h'.new_eq, hearlier] at hnodup
  rintro rfl
  exact List.disjoint_of_nodup_append hnodup (by simp) List.mem_cons_self

/-- Two names are never replaced by the same one. -/
theorem Refers.name_eq (h : Refers reserved calls name new) (h' : Refers reserved calls name' new) :
    name = name' := by
  obtain ⟨level, place, hview, -⟩ := h
  obtain ⟨level', place', hview', -⟩ := h'
  rcases Nat.lt_trichotomy place place' with hlt | rfl | hlt
  · exact absurd rfl (hview.new_ne hview' hlt)
  · exact (hview.unique hview').2.1
  · exact absurd rfl (hview'.new_ne hview hlt)

/-! ### References that were not resolved, and shared frames -/

/-- A call that was made is the last one or was made before it. -/
theorem concat_eq_append_cons_iff {other : ContextCall} {before after : List ContextCall} :
    calls ++ [call] = before ++ other :: after ↔
      after = [] ∧ calls = before ∧ call = other ∨
        ∃ between, after = between ++ [call] ∧ calls = before ++ other :: between := by
  constructor
  · intro hsplit
    rcases List.eq_nil_or_concat after with rfl | ⟨between, last, rfl⟩
    · obtain ⟨hcalls, hlast⟩ := List.append_inj' hsplit rfl
      exact .inl ⟨rfl, hcalls, List.singleton_inj.1 hlast⟩
    · rw [List.concat_eq_append, ← List.cons_append, ← List.append_assoc] at hsplit
      obtain ⟨hcalls, hlast⟩ := List.append_inj' hsplit rfl
      exact .inr ⟨between, by rw [List.concat_eq_append, hlast], hcalls⟩
  · rintro (⟨rfl, rfl, rfl⟩ | ⟨between, rfl, rfl⟩)
    · rfl
    · simp

/-- The same, of a call with something true of the calls before it. -/
theorem exists_concat_iff {P : List ContextCall → Prop} {other : ContextCall} :
    (∃ before after, calls ++ [call] = before ++ other :: after ∧ P before) ↔
      (∃ before after, calls = before ++ other :: after ∧ P before) ∨ call = other ∧ P calls := by
  simp only [concat_eq_append_cons_iff]
  constructor
  · rintro ⟨before, after, ⟨rfl, rfl, rfl⟩ | ⟨between, rfl, rfl⟩, hbefore⟩
    · exact .inr ⟨rfl, hbefore⟩
    · exact .inl ⟨before, between, rfl, hbefore⟩
  · rintro (⟨before, between, rfl, hbefore⟩ | ⟨rfl, hcalls⟩)
    · exact ⟨before, _, .inr ⟨between, rfl, rfl⟩, hbefore⟩
    · exact ⟨calls, [], .inl ⟨rfl, rfl, rfl⟩, hcalls⟩

/-- The same, of a call after which another one was not made. -/
theorem exists_concat_notMem_iff {other stop : ContextCall} :
    (∃ before after, calls ++ [call] = before ++ other :: after ∧ stop ∉ after) ↔
      call = other ∨
        call ≠ stop ∧ ∃ before after, calls = before ++ other :: after ∧ stop ∉ after := by
  simp only [concat_eq_append_cons_iff]
  constructor
  · rintro ⟨before, after, ⟨rfl, rfl, rfl⟩ | ⟨between, rfl, rfl⟩, hstop⟩
    · exact .inl rfl
    · rw [List.mem_append, not_or, List.mem_singleton] at hstop
      exact .inr ⟨Ne.symm hstop.2, before, between, rfl, hstop.1⟩
  · rintro (rfl | ⟨hcall, before, between, rfl, hstop⟩)
    · exact ⟨calls, [], .inl ⟨rfl, rfl, rfl⟩, List.not_mem_nil⟩
    · exact ⟨before, _, .inr ⟨between, rfl, rfl⟩, by simp [hstop, Ne.symm hcall]⟩

/-- The names remembered are those that were not resolved when they were asked for. -/
theorem contains_unresolved (reserved : List Name) (calls : List ContextCall) (name : Name) :
    ((Context.start reserved).afterCalls calls).unresolved.contains name ↔
      ∃ before after, calls = before ++ .resolve name :: after ∧
        (Renaming.resolve name).outcome ((Context.start reserved).afterCalls before) = .ok none := by
  induction calls using List.reverseRecOn with
  | nil => simp [Context.afterCalls, Context.start]
  | append_singleton calls call ih =>
      rw [exists_concat_iff, ← ih, Context.afterCalls_concat]
      generalize (Context.start reserved).afterCalls calls = c
      cases call with
      | resolve other =>
          rw [perform_resolve, Context.step, Renaming.outcome, Renaming.yields_resolve, resolve.injEq]
          cases hlookup : c.scopes.lookup other with
          | none =>
              rw [Std.TreeSet.contains_insert, Bool.or_eq_true, beq_iff_eq,
                Std.LawfulEqOrd.compare_eq_iff_eq]
              constructor
              · rintro (rfl | h)
                · exact .inr ⟨rfl, by rw [hlookup]⟩
                · exact .inl h
              · rintro (h | ⟨rfl, -⟩)
                · exact .inr h
                · exact .inl rfl
          | some new =>
              refine (or_iff_left ?_).symm
              rintro ⟨rfl, houtcome⟩
              rw [hlookup] at houtcome
              cases houtcome
      | declare other => simp [perform_declare, Context.step]
      | exit => simp [perform_exit, Context.step]
      | _ => simp [perform_enter, perform_share, perform_takeShared, Context.step]

/-- A frame is to be shared iff this was asked for and not taken since. -/
theorem sharesNext_afterCalls (reserved : List Name) (calls : List ContextCall) :
    ((Context.start reserved).afterCalls calls).sharesNext = true ↔
      ∃ before after, calls = before ++ .share :: after ∧ .takeShared ∉ after := by
  induction calls using List.reverseRecOn with
  | nil => simp [Context.afterCalls, Context.start]
  | append_singleton calls call ih =>
      rw [exists_concat_notMem_iff, ← ih, Context.afterCalls_concat]
      cases call with
      | share => simp [perform_share]
      | takeShared => simp [perform_takeShared]
      | declare name => simp [perform_declare]
      | resolve name => simp [perform_resolve]
      | enter => simp [perform_enter]
      | exit => simp [perform_exit]

end ContextCall

/-- The names that were not resolved are listed in order and once each. -/
theorem Context.unresolvedNames_sorted (c : Context) : c.unresolvedNames.Pairwise (· < ·) :=
  (Std.TreeSet.ordered_toList (t := c.unresolved)).imp fun h => compareOfLessAndEq_eq_lt.1 h

/-- What calls tell of the context `c` that they leave after a reset in which the names `reserved` are taken. -/
structure ContextCall.Describe (reserved : List Name) (calls : List ContextCall) (c : Context) : Prop where
  /-- The names that declarations generate are all different, -/
  generated_nodup : ((Context.start reserved).generated calls).Nodup
  /-- and none of them is reserved. -/
  not_mem_reserved : ∀ name ∈ (Context.start reserved).generated calls, name ∉ reserved
  /-- The names taken are the reserved and the generated ones. -/
  contains_iff : ∀ name, c.registry.contains name ↔
    name ∈ reserved ∨ name ∈ (Context.start reserved).generated calls
  /-- A declaration generates one more name. It answers with it, or fails, exactly if no frame is open. -/
  declare : ∀ name, ∃ new,
    (Context.start reserved).generated (calls ++ [.declare name]) =
      (Context.start reserved).generated calls ++ [new] ∧
    (Renaming.declare name).outcome c =
      if openFrames calls = 0 then .error (.underflow "bind name") else .ok new
  /-- Closing a frame fails exactly if no frame is open. -/
  exit : Renaming.exit.outcome c =
    if openFrames calls = 0 then .error (.underflow "exit scope") else .ok ()
  /-- A name is resolved to what the latest declaration of it gave in the innermost open frame that has one, -/
  resolve_some : ∀ name new,
    (Renaming.resolve name).outcome c = .ok (some new) ↔ Refers reserved calls name new
  /-- and to nothing exactly if no open frame has one. -/
  resolve_none : ∀ name, (Renaming.resolve name).outcome c = .ok none ↔
    ∀ level place new, ¬InView reserved calls level place name new
  /-- Asking never fails. -/
  resolve_ok : ∀ name, ∃ answer, (Renaming.resolve name).outcome c = .ok answer
  /-- Two names are never resolved to the same one. -/
  resolve_injective : ∀ name name' new, (Renaming.resolve name).outcome c = .ok (some new) →
    (Renaming.resolve name').outcome c = .ok (some new) → name = name'
  /-- The names remembered as not resolved are in order, each once, -/
  unresolved_sorted : c.unresolvedNames.Pairwise (· < ·)
  /-- and they are those that were resolved to nothing when they were asked for. -/
  mem_unresolved : ∀ name, name ∈ c.unresolvedNames ↔
    ∃ before after, calls = before ++ .resolve name :: after ∧
      (Renaming.resolve name).outcome ((Context.start reserved).afterCalls before) = .ok none
  /-- A frame is to be shared exactly if this was asked for and not taken since. -/
  takeShared : ∃ shared, Renaming.takeShared.outcome c = .ok shared ∧
    (shared = true ↔ ∃ before after, calls = before ++ .share :: after ∧ .takeShared ∉ after)

open ContextCall in
/-- **A context answers as its calls tell.** Reset any context, and let any calls follow, also such that fail: the
context that is left is as the calls describe it. -/
theorem Renaming.describe_afterReset (context : Context) (reserved : List Name) (calls : List ContextCall) :
    Describe reserved calls (context.afterReset reserved calls) := by
  change Describe reserved calls ((Context.start reserved).afterCalls calls)
  have hholds := Registry.holds_reserveAll reserved
  have hallocates := Context.allocates_generated (c := Context.start reserved) hholds calls
  have hresolve : ∀ name, (resolve name).outcome ((Context.start reserved).afterCalls calls) =
      .ok (((Context.start reserved).afterCalls calls).scopes.lookup name) := fun name =>
    congrArg Prod.fst (yields_resolve _ name)
  refine ⟨hallocates.nodup, fun name hname => hallocates.not_mem_taken hname, fun name => ?_, fun name => ?_,
    outcome_exit reserved calls, fun name new => ?_, fun name => ?_, fun name => ⟨_, hresolve name⟩,
    fun name name' new h h' => ?_, Context.unresolvedNames_sorted _, fun name => ?_, ?_⟩
  · rw [Context.contains_afterCalls]
    exact or_congr_left (hholds name)
  · refine ⟨_, ?_, outcome_declare reserved calls name⟩
    rw [Context.generated_append]
    rfl
  · rw [hresolve, Except.ok.injEq]
    exact lookup_eq_some_iff
  · rw [hresolve, Except.ok.injEq]
    exact lookup_eq_none_iff
  · rw [hresolve, Except.ok.injEq] at h h'
    exact (lookup_eq_some_iff.1 h).name_eq (lookup_eq_some_iff.1 h')
  · rw [Context.unresolvedNames, Std.TreeSet.mem_toList, ← Std.TreeSet.contains_iff_mem]
    exact contains_unresolved reserved calls name
  · exact ⟨_, rfl, sharesNext_afterCalls reserved calls⟩

end Freshen
