import Mathlib
import Freshen.Proofs.Scope.Events
import Freshen.Proofs.Tree.Locals

/-!
# Shape and names

A tree is known from its shape and its names: those that it binds and those that it refers to, each in
walk order.  Along the shape names are read off one by one, and what is left belongs to what comes after
the tree.

- `ScopeEvent.referredNames`: the names that events refer to.
- `ScopeEvent.SameNames`: two rows of events bind the same names and refer to the same names.

**Key result.** `Callable.eq_of_names`: callables of one shape that bind the same names and refer to the
same names are the same.
-/

namespace Freshen

/-! ### The names in events -/

namespace ScopeEvent

/-- The name that an event refers to. -/
def referred? : ScopeEvent → Option Name
  | refer name => some name
  | _ => none

/-- The names that events refer to, in order. -/
def referredNames (events : List ScopeEvent) : List Name := events.filterMap referred?

/-- Two rows of events refer to what the first refers to and then to what the second refers to. -/
@[simp] theorem referredNames_append (es fs : List ScopeEvent) :
    referredNames (es ++ fs) = referredNames es ++ referredNames fs := List.filterMap_append

/-- Bindings refer to no names. -/
@[simp] theorem referredNames_map_bind (ns : List Name) : referredNames (ns.map bind) = [] := by
  induction ns with
  | nil => rfl
  | cons n ns ih => exact ih

/-- References refer to their names. -/
@[simp] theorem referredNames_map_refer (ns : List Name) : referredNames (ns.map refer) = ns := by
  induction ns with
  | nil => rfl
  | cons n ns ih => exact congrArg (n :: ·) ih

/-- Two rows of events bind the same names and refer to the same names. -/
structure SameNames (es fs : List ScopeEvent) : Prop where
  bound_eq : boundNames es = boundNames fs
  referred_eq : referredNames es = referredNames fs

namespace SameNames

variable {es fs : List ScopeEvent}

/-- After frames that both open, the same names are left. -/
theorem of_enter (h : SameNames (enter :: es) (enter :: fs)) : SameNames es fs := ⟨h.1, h.2⟩

/-- After frames that both close, the same names are left. -/
theorem of_exit (h : SameNames (exit :: es) (exit :: fs)) : SameNames es fs := ⟨h.1, h.2⟩

/-- The names that are bound first are bound in both rows of events. -/
theorem of_map_bind {ns ns' : List Name} (h : SameNames (ns.map bind ++ es) (ns'.map bind ++ fs)) :
    ns ++ boundNames es = ns' ++ boundNames fs ∧ referredNames es = referredNames fs := by
  constructor
  · simpa using h.bound_eq
  · simpa using h.referred_eq

/-- The names that are referred to first are referred to in both rows of events. -/
theorem of_map_refer {ns ns' : List Name} (h : SameNames (ns.map refer ++ es) (ns'.map refer ++ fs)) :
    boundNames es = boundNames fs ∧ ns ++ referredNames es = ns' ++ referredNames fs := by
  constructor
  · simpa using h.bound_eq
  · simpa using h.referred_eq

end SameNames

end ScopeEvent

open ScopeEvent (SameNames)

/-- References are made by the names that events refer to. -/
theorem Sites.map_fst_references (s : Sites) (es : List ScopeEvent) :
    (s.references es).map Prod.fst = ScopeEvent.referredNames es := by
  induction es generalizing s with
  | nil => rfl
  | cons e es ih =>
      cases e with
      | refer name => exact congrArg (name :: ·) (ih s)
      | _ => exact ih _

/-! ### Binding sites -/

namespace Pattern

mutual

/-- A pattern is known from its shape and the names that it binds, whatever names follow. -/
theorem eq_of_names : ∀ {p p' : Pattern} {ns ns' : List Name}, p.withoutLocals = p'.withoutLocals →
    p.names ++ ns = p'.names ++ ns' → p = p' ∧ ns = ns'
  | binder ⟨n, t, s⟩, binder ⟨n', t', s'⟩, _, _, hshape, hnames => by
      simp only [withoutLocals, Binder.withoutLocals, binder.injEq, Binder.mk.injEq, true_and] at hshape
      obtain ⟨rfl, rfl⟩ := hshape
      obtain ⟨rfl, hafter⟩ := List.cons.inj hnames
      exact ⟨rfl, hafter⟩
  | tuple is s, tuple is' s', _, _, hshape, hnames => by
      obtain ⟨hitems, rfl⟩ := tuple.inj hshape
      obtain ⟨rfl, hafter⟩ := eq_of_namesList hitems hnames
      exact ⟨rfl, hafter⟩
  | discard _, discard _, _, _, hshape, hnames => ⟨hshape, hnames⟩
  | invalid _, invalid _, _, _, hshape, hnames => ⟨hshape, hnames⟩

/-- The same of several patterns. -/
theorem eq_of_namesList : ∀ {ps ps' : List Pattern} {ns ns' : List Name},
    withoutLocalsList ps = withoutLocalsList ps' → namesList ps ++ ns = namesList ps' ++ ns' →
    ps = ps' ∧ ns = ns'
  | [], [], _, _, _, hnames => ⟨rfl, hnames⟩
  | p :: ps, p' :: ps', _, _, hshape, hnames => by
      obtain ⟨hfirst, hrest⟩ := List.cons.inj hshape
      rw [namesList, namesList, List.append_assoc, List.append_assoc] at hnames
      obtain ⟨rfl, hnext⟩ := eq_of_names hfirst hnames
      obtain ⟨rfl, hafter⟩ := eq_of_namesList hrest hnext
      exact ⟨rfl, hafter⟩

end

/-- A pattern is known from its shape and the names in its events, whatever events follow. -/
theorem eq_of_sameNames {p p' : Pattern} {es fs : List ScopeEvent}
    (hshape : p.withoutLocals = p'.withoutLocals)
    (h : SameNames (p.events ++ es) (p'.events ++ fs)) : p = p' ∧ SameNames es fs := by
  obtain ⟨hbound, hreferred⟩ := h.of_map_bind
  obtain ⟨hpattern, hafter⟩ := eq_of_names hshape hbound
  exact ⟨hpattern, hafter, hreferred⟩

end Pattern

namespace Params

mutual

/-- Parameters are known from their shape and their names, whatever names follow. -/
theorem eq_of_names : ∀ {p p' : Params} {ns ns' : List Name}, p.withoutLocals = p'.withoutLocals →
    p.names ++ ns = p'.names ++ ns' → p = p' ∧ ns = ns'
  | binder ⟨n, t, s⟩, binder ⟨n', t', s'⟩, _, _, hshape, hnames => by
      simp only [withoutLocals, Binder.withoutLocals, binder.injEq, Binder.mk.injEq, true_and] at hshape
      obtain ⟨rfl, rfl⟩ := hshape
      obtain ⟨rfl, hafter⟩ := List.cons.inj hnames
      exact ⟨rfl, hafter⟩
  | tuple is s, tuple is' s', _, _, hshape, hnames => by
      obtain ⟨hitems, rfl⟩ := tuple.inj hshape
      obtain ⟨rfl, hafter⟩ := eq_of_namesList hitems hnames
      exact ⟨rfl, hafter⟩
  | unnamed _, unnamed _, _, _, hshape, hnames => ⟨hshape, hnames⟩

/-- The same of several parameters. -/
theorem eq_of_namesList : ∀ {ps ps' : List Params} {ns ns' : List Name},
    withoutLocalsList ps = withoutLocalsList ps' → namesList ps ++ ns = namesList ps' ++ ns' →
    ps = ps' ∧ ns = ns'
  | [], [], _, _, _, hnames => ⟨rfl, hnames⟩
  | p :: ps, p' :: ps', _, _, hshape, hnames => by
      obtain ⟨hfirst, hrest⟩ := List.cons.inj hshape
      rw [namesList, namesList, List.append_assoc, List.append_assoc] at hnames
      obtain ⟨rfl, hnext⟩ := eq_of_names hfirst hnames
      obtain ⟨rfl, hafter⟩ := eq_of_namesList hrest hnext
      exact ⟨rfl, hafter⟩

end

/-- Parameters are known from their shape and the names in their events, whatever events follow. -/
theorem eq_of_sameNames {p p' : Params} {es fs : List ScopeEvent}
    (hshape : p.withoutLocals = p'.withoutLocals)
    (h : SameNames (p.events ++ es) (p'.events ++ fs)) : p = p' ∧ SameNames es fs := by
  obtain ⟨hbound, hreferred⟩ := h.of_map_bind
  obtain ⟨hparams, hafter⟩ := eq_of_names hshape hbound
  exact ⟨hparams, hafter, hreferred⟩

end Params

/-! ### Expressions -/

/-- A reference is known from its shape and its local name, whatever names follow. -/
theorem Reference.eq_of_locals {r r' : Reference} {ns ns' : List Name}
    (hshape : r.withoutLocals = r'.withoutLocals) (hnames : r.locals ++ ns = r'.locals ++ ns') :
    r = r' ∧ ns = ns' := by
  cases r with
  | unqualified name =>
      cases r' with
      | unqualified name' =>
          obtain ⟨rfl, hafter⟩ := List.cons.inj hnames
          exact ⟨rfl, hafter⟩
      | qualified _ _ => cases hshape
  | qualified _ _ =>
      cases r' with
      | unqualified _ => cases hshape
      | qualified _ _ => exact ⟨hshape, hnames⟩

namespace Expr

mutual

/-- An expression is known from its shape and the names of its local references, whatever names
follow. -/
theorem eq_of_locals : ∀ {e e' : Expr} {ns ns' : List Name}, e.withoutLocals = e'.withoutLocals →
    e.locals ++ ns = e'.locals ++ ns' → e = e' ∧ ns = ns'
  | int _ _, int _ _, _, _, hshape, hnames => ⟨hshape, hnames⟩
  | bool _ _, bool _ _, _, _, hshape, hnames => ⟨hshape, hnames⟩
  | str _ _, str _ _, _, _, hshape, hnames => ⟨hshape, hnames⟩
  | unit _, unit _, _, _, hshape, hnames => ⟨hshape, hnames⟩
  | ref _ _ _, ref _ _ _, _, _, hshape, hnames => by
      obtain ⟨htarget, rfl, rfl⟩ := ref.inj hshape
      obtain ⟨rfl, hafter⟩ := Reference.eq_of_locals htarget hnames
      exact ⟨rfl, hafter⟩
  | unary _ _ _, unary _ _ _, _, _, hshape, hnames => by
      obtain ⟨rfl, hoperand, rfl⟩ := unary.inj hshape
      obtain ⟨rfl, hafter⟩ := eq_of_locals hoperand hnames
      exact ⟨rfl, hafter⟩
  | binary _ _ _ _, binary _ _ _ _, _, _, hshape, hnames => by
      obtain ⟨rfl, hleft, hright, rfl⟩ := binary.inj hshape
      rw [locals, locals, List.append_assoc, List.append_assoc] at hnames
      obtain ⟨rfl, hnext⟩ := eq_of_locals hleft hnames
      obtain ⟨rfl, hafter⟩ := eq_of_locals hright hnext
      exact ⟨rfl, hafter⟩
  | call _ _ _, call _ _ _, _, _, hshape, hnames => by
      obtain ⟨hcallee, hargs, rfl⟩ := call.inj hshape
      rw [locals, locals, List.append_assoc, List.append_assoc] at hnames
      obtain ⟨rfl, hnext⟩ := eq_of_locals hcallee hnames
      obtain ⟨rfl, hafter⟩ := eq_of_localsList hargs hnext
      exact ⟨rfl, hafter⟩
  | index _ _ _, index _ _ _, _, _, hshape, hnames => by
      obtain ⟨hbase, hindex, rfl⟩ := index.inj hshape
      rw [locals, locals, List.append_assoc, List.append_assoc] at hnames
      obtain ⟨rfl, hnext⟩ := eq_of_locals hbase hnames
      obtain ⟨rfl, hafter⟩ := eq_of_locals hindex hnext
      exact ⟨rfl, hafter⟩
  | tuple _ _, tuple _ _, _, _, hshape, hnames => by
      obtain ⟨hitems, rfl⟩ := tuple.inj hshape
      obtain ⟨rfl, hafter⟩ := eq_of_localsList hitems hnames
      exact ⟨rfl, hafter⟩
  | array _ _, array _ _, _, _, hshape, hnames => by
      obtain ⟨hitems, rfl⟩ := array.inj hshape
      obtain ⟨rfl, hafter⟩ := eq_of_localsList hitems hnames
      exact ⟨rfl, hafter⟩

/-- The same of several expressions. -/
theorem eq_of_localsList : ∀ {es es' : List Expr} {ns ns' : List Name},
    withoutLocalsList es = withoutLocalsList es' → localsList es ++ ns = localsList es' ++ ns' →
    es = es' ∧ ns = ns'
  | [], [], _, _, _, hnames => ⟨rfl, hnames⟩
  | _ :: _, _ :: _, _, _, hshape, hnames => by
      obtain ⟨hfirst, hrest⟩ := List.cons.inj hshape
      rw [localsList, localsList, List.append_assoc, List.append_assoc] at hnames
      obtain ⟨rfl, hnext⟩ := eq_of_locals hfirst hnames
      obtain ⟨rfl, hafter⟩ := eq_of_localsList hrest hnext
      exact ⟨rfl, hafter⟩

end

/-- An expression is known from its shape and the names in its events, whatever events follow. -/
theorem eq_of_sameNames {e e' : Expr} {es fs : List ScopeEvent}
    (hshape : e.withoutLocals = e'.withoutLocals)
    (h : SameNames (e.events ++ es) (e'.events ++ fs)) : e = e' ∧ SameNames es fs := by
  obtain ⟨hbound, hreferred⟩ := h.of_map_refer
  obtain ⟨hexpr, hafter⟩ := eq_of_locals hshape hreferred
  exact ⟨hexpr, hbound, hafter⟩

/-- The same of an optional expression. -/
theorem eq_of_sameNamesOption {e e' : Option Expr} {es fs : List ScopeEvent}
    (hshape : e.map withoutLocals = e'.map withoutLocals)
    (h : SameNames (eventsOption e ++ es) (eventsOption e' ++ fs)) : e = e' ∧ SameNames es fs := by
  cases e with
  | none =>
      cases e' with
      | none => exact ⟨rfl, h⟩
      | some _ => cases hshape
  | some e =>
      cases e' with
      | none => cases hshape
      | some e' =>
          obtain ⟨rfl, hafter⟩ := eq_of_sameNames (Option.some.inj hshape) h
          exact ⟨rfl, hafter⟩

end Expr

/-! ### Statements -/

mutual

/-- A statement is known from its shape and the names in its events, whatever events follow. -/
theorem Stmt.eq_of_sameNames : ∀ {t t' : Stmt} {es fs : List ScopeEvent},
    t.withoutLocals = t'.withoutLocals → SameNames (t.events ++ es) (t'.events ++ fs) →
    t = t' ∧ SameNames es fs
  | .bind _ _ _ _, .bind _ _ _ _, _, _, hshape, h => by
      obtain ⟨hpattern, rfl, hinit, rfl⟩ := Stmt.bind.inj hshape
      rw [Stmt.events, Stmt.events, List.append_assoc, List.append_assoc] at h
      obtain ⟨rfl, hnext⟩ := Expr.eq_of_sameNames hinit h
      obtain ⟨rfl, hafter⟩ := Pattern.eq_of_sameNames hpattern hnext
      exact ⟨rfl, hafter⟩
  | .assign _ _ _, .assign _ _ _, _, _, hshape, h => by
      obtain ⟨htarget, hvalue, rfl⟩ := Stmt.assign.inj hshape
      rw [Stmt.events, Stmt.events, List.append_assoc, List.append_assoc] at h
      obtain ⟨rfl, hnext⟩ := Expr.eq_of_sameNames htarget h
      obtain ⟨rfl, hafter⟩ := Expr.eq_of_sameNames hvalue hnext
      exact ⟨rfl, hafter⟩
  | .eval _ _, .eval _ _, _, _, hshape, h => by
      obtain ⟨hvalue, rfl⟩ := Stmt.eval.inj hshape
      obtain ⟨rfl, hafter⟩ := Expr.eq_of_sameNames hvalue h
      exact ⟨rfl, hafter⟩
  | .ret _ _, .ret _ _, _, _, hshape, h => by
      obtain ⟨hvalue, rfl⟩ := Stmt.ret.inj hshape
      obtain ⟨rfl, hafter⟩ := Expr.eq_of_sameNamesOption hvalue h
      exact ⟨rfl, hafter⟩
  | .choose _ _ _, .choose _ _ _, _, _, hshape, h => by
      obtain ⟨hbranches, hotherwise, rfl⟩ := Stmt.choose.inj hshape
      rw [Stmt.events, Stmt.events, List.append_assoc, List.append_assoc] at h
      obtain ⟨rfl, hnext⟩ := Branch.eq_of_sameNamesList hbranches h
      obtain ⟨rfl, hafter⟩ := Block.eq_of_sameNamesOption hotherwise hnext
      exact ⟨rfl, hafter⟩
  | .loopWhile _ _ _, .loopWhile _ _ _, _, _, hshape, h => by
      obtain ⟨hcond, hbody, rfl⟩ := Stmt.loopWhile.inj hshape
      rw [Stmt.events, Stmt.events, List.append_assoc, List.append_assoc] at h
      obtain ⟨rfl, hnext⟩ := Expr.eq_of_sameNames hcond h
      obtain ⟨rfl, hafter⟩ := Block.eq_of_sameNames hbody hnext
      exact ⟨rfl, hafter⟩
  | .loopFor _ _ _ _, .loopFor _ _ _ _, _, _, hshape, h => by
      obtain ⟨hpattern, hsource, hbody, rfl⟩ := Stmt.loopFor.inj hshape
      simp only [Stmt.events, List.append_assoc, List.cons_append] at h
      obtain ⟨rfl, hframe⟩ := Expr.eq_of_sameNames hsource h
      obtain ⟨rfl, hnext⟩ := Pattern.eq_of_sameNames hpattern hframe.of_enter
      obtain ⟨rfl, hafter⟩ := Block.eq_of_sameNames hbody hnext
      exact ⟨rfl, hafter.of_exit⟩
  | .loopUntil _ _ _ _, .loopUntil _ _ _ _, _, _, hshape, h => by
      obtain ⟨hbody, hcond, hfixup, rfl⟩ := Stmt.loopUntil.inj hshape
      simp only [Stmt.events, List.append_assoc, List.cons_append] at h
      obtain ⟨rfl, hnext⟩ := Block.eq_of_sameNamesInner hbody h.of_enter
      obtain ⟨rfl, hlast⟩ := Expr.eq_of_sameNames hcond hnext
      obtain ⟨rfl, hafter⟩ := Block.eq_of_sameNamesOption hfixup hlast
      exact ⟨rfl, hafter.of_exit⟩
  | .block _ _, .block _ _, _, _, hshape, h => by
      obtain ⟨hbody, rfl⟩ := Stmt.block.inj hshape
      obtain ⟨rfl, hafter⟩ := Block.eq_of_sameNames hbody h
      exact ⟨rfl, hafter⟩
termination_by structural t => t

/-- The same of a block with its frame. -/
theorem Block.eq_of_sameNames : ∀ {b b' : Block} {es fs : List ScopeEvent},
    b.withoutLocals = b'.withoutLocals → SameNames (b.events ++ es) (b'.events ++ fs) →
    b = b' ∧ SameNames es fs
  | ⟨_, _⟩, ⟨_, _⟩, _, _, hshape, h => by
      obtain ⟨hstmts, rfl⟩ := Block.mk.inj hshape
      simp only [Block.events, List.append_assoc, List.cons_append] at h
      obtain ⟨rfl, hafter⟩ := Stmt.eq_of_sameNamesList hstmts h.of_enter
      exact ⟨rfl, hafter.of_exit⟩
termination_by structural b => b

/-- The same of a block without its frame. -/
theorem Block.eq_of_sameNamesInner : ∀ {b b' : Block} {es fs : List ScopeEvent},
    b.withoutLocals = b'.withoutLocals → SameNames (b.innerEvents ++ es) (b'.innerEvents ++ fs) →
    b = b' ∧ SameNames es fs
  | ⟨_, _⟩, ⟨_, _⟩, _, _, hshape, h => by
      obtain ⟨hstmts, rfl⟩ := Block.mk.inj hshape
      obtain ⟨rfl, hafter⟩ := Stmt.eq_of_sameNamesList hstmts h
      exact ⟨rfl, hafter⟩
termination_by structural b => b

/-- The same of an optional block. -/
theorem Block.eq_of_sameNamesOption : ∀ {b b' : Option Block} {es fs : List ScopeEvent},
    Block.withoutLocalsOption b = Block.withoutLocalsOption b' →
    SameNames (Block.eventsOption b ++ es) (Block.eventsOption b' ++ fs) → b = b' ∧ SameNames es fs
  | none, none, _, _, _, h => ⟨rfl, h⟩
  | some _, some _, _, _, hshape, h => by
      obtain ⟨rfl, hafter⟩ := Block.eq_of_sameNames (Option.some.inj hshape) h
      exact ⟨rfl, hafter⟩
termination_by structural b => b

/-- The same of several statements. -/
theorem Stmt.eq_of_sameNamesList : ∀ {ts ts' : List Stmt} {es fs : List ScopeEvent},
    Stmt.withoutLocalsList ts = Stmt.withoutLocalsList ts' →
    SameNames (Stmt.eventsList ts ++ es) (Stmt.eventsList ts' ++ fs) → ts = ts' ∧ SameNames es fs
  | [], [], _, _, _, h => ⟨rfl, h⟩
  | _ :: _, _ :: _, _, _, hshape, h => by
      obtain ⟨hfirst, hrest⟩ := List.cons.inj hshape
      rw [Stmt.eventsList, Stmt.eventsList, List.append_assoc, List.append_assoc] at h
      obtain ⟨rfl, hnext⟩ := Stmt.eq_of_sameNames hfirst h
      obtain ⟨rfl, hafter⟩ := Stmt.eq_of_sameNamesList hrest hnext
      exact ⟨rfl, hafter⟩
termination_by structural ts => ts

/-- The same of several branches. -/
theorem Branch.eq_of_sameNamesList : ∀ {bs bs' : List Branch} {es fs : List ScopeEvent},
    Branch.withoutLocalsList bs = Branch.withoutLocalsList bs' →
    SameNames (Branch.eventsList bs ++ es) (Branch.eventsList bs' ++ fs) → bs = bs' ∧ SameNames es fs
  | [], [], _, _, _, h => ⟨rfl, h⟩
  | [], ⟨_, _⟩ :: _, _, _, hshape, _ => nomatch hshape
  | ⟨_, _⟩ :: _, ⟨_, _⟩ :: _, _, _, hshape, h => by
      obtain ⟨hfirst, hrest⟩ := List.cons.inj hshape
      obtain ⟨hcond, hbody⟩ := Branch.mk.inj hfirst
      simp only [Branch.eventsList, List.append_assoc] at h
      obtain ⟨rfl, hthen⟩ := Expr.eq_of_sameNames hcond h
      obtain ⟨rfl, hnext⟩ := Block.eq_of_sameNames hbody hthen
      obtain ⟨rfl, hafter⟩ := Branch.eq_of_sameNamesList hrest hnext
      exact ⟨rfl, hafter⟩
termination_by structural bs => bs

end

/-- **A callable is its shape and its names.**  Callables that are the same without local names, that bind
the same names and that refer to the same names are the same. -/
theorem Callable.eq_of_names {c d : Callable} (hshape : c.withoutLocals = d.withoutLocals)
    (hsites : c.sites = d.sites)
    (hreferences : c.references.map Prod.fst = d.references.map Prod.fst) : c = d := by
  obtain ⟨name, params, body, span⟩ := c
  obtain ⟨name', params', body', span'⟩ := d
  obtain ⟨rfl, hparams, hbody, rfl⟩ := Callable.mk.inj hshape
  rw [references, references, Sites.map_fst_references, Sites.map_fst_references] at hreferences
  have hnames : SameNames (params.events ++ (body.events ++ []))
      (params'.events ++ (body'.events ++ [])) := by
    rw [List.append_nil, List.append_nil]
    exact ⟨hsites, hreferences⟩
  obtain ⟨rfl, hnext⟩ := Params.eq_of_sameNames hparams hnames
  obtain ⟨rfl, -⟩ := Block.eq_of_sameNames hbody hnext
  rfl

end Freshen
