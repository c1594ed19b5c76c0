import Mathlib
import Freshen.Proofs.Scope.Events
import Freshen.Proofs.Token.Reading
import Freshen.Proofs.Tree.Locals
import Freshen.Proofs.Tree.Spans

/-!
# Trees that source text can spell

Not every tree is that of a source text: a name may be no identifier, an integer may be negative, and
a tuple of no expressions, a tuple of one parameter, a choice without branches or a path of global
names without qualifiers cannot be written down.

- `Expr.Spellable`, `Callable.Spellable`, `Program.Spellable`: trees without such a part. What is asked of local names
  is a parameter.
- `ScopeEvent.AllNames`: what holds of every name that events bind or refer to.

**Key results.** `Callable.spellable_iff`: asking something of the local names of a spellable callable is
asking it of the names in its events.
-/

namespace Freshen

/-! ### Types and binding sites -/

mutual

/-- The annotation can be written down. -/
def TypeExpr.Spellable : TypeExpr → Prop
  | .named n args _ => IsIdentifier n ∧ TypeExpr.SpellableList args
  | .tuple items _ => TypeExpr.SpellableList items
  | .array elem _ => TypeExpr.Spellable elem
termination_by structural t => t

/-- All of several annotations can be written down. -/
def TypeExpr.SpellableList : List TypeExpr → Prop
  | [] => True
  | t :: ts => TypeExpr.Spellable t ∧ TypeExpr.SpellableList ts
termination_by structural ts => ts

end

variable (ok : Name → Prop)

/-- The binding site can be written down. -/
def Binder.Spellable (b : Binder) : Prop := ok b.name ∧ ∀ t ∈ b.type, t.Spellable

mutual

/-- The pattern can be written down. -/
def Pattern.Spellable (ok : Name → Prop) : Pattern → Prop
  | .binder b => b.Spellable ok
  | .tuple items _ => Pattern.SpellableList ok items
  | .discard _ => True
  | .invalid _ => False
termination_by structural p => p

/-- All of several patterns can be written down. -/
def Pattern.SpellableList (ok : Name → Prop) : List Pattern → Prop
  | [] => True
  | p :: ps => Pattern.Spellable ok p ∧ Pattern.SpellableList ok ps
termination_by structural ps => ps

end

mutual

/-- The parameters can be written down: no tuple of one item stands in them. -/
def Params.Spellable (ok : Name → Prop) : Params → Prop
  | .binder b => b.Spellable ok
  | .tuple items _ => items.length ≠ 1 ∧ Params.SpellableList ok items
  | .unnamed _ => True
termination_by structural p => p

/-- All of several parameters can be written down. -/
def Params.SpellableList (ok : Name → Prop) : List Params → Prop
  | [] => True
  | p :: ps => Params.Spellable ok p ∧ Params.SpellableList ok ps
termination_by structural ps => ps

end

/-! ### Expressions and statements -/

/-- The reference can be written down: a path of global names has a qualifier. -/
def Reference.Spellable : Reference → Prop
  | unqualified n => ok n
  | qualified qualifiers n => qualifiers ≠ [] ∧ (∀ q ∈ qualifiers, IsIdentifier q) ∧ IsIdentifier n

mutual

/-- The expression can be written down: no integer in it is negative, and no tuple is empty. -/
def Expr.Spellable (ok : Name → Prop) : Expr → Prop
  | .int value _ => 0 ≤ value
  | .bool _ _ => True
  | .str _ _ => True
  | .unit _ => True
  | .ref target args _ => target.Spellable ok ∧ ∀ ts ∈ args, TypeExpr.SpellableList ts
  | .unary _ e _ => Expr.Spellable ok e
  | .binary _ l r _ => Expr.Spellable ok l ∧ Expr.Spellable ok r
  | .call f args _ => Expr.Spellable ok f ∧ Expr.SpellableList ok args
  | .index b i _ => Expr.Spellable ok b ∧ Expr.Spellable ok i
  | .tuple items _ => items ≠ [] ∧ Expr.SpellableList ok items
  | .array items _ => Expr.SpellableList ok items
termination_by structural e => e

/-- All of several expressions can be written down. -/
def Expr.SpellableList (ok : Name → Prop) : List Expr → Prop
  | [] => True
  | e :: es => Expr.Spellable ok e ∧ Expr.SpellableList ok es
termination_by structural es => es

end

mutual

/-- The statement can be written down: every choice in it has a branch. -/
def Stmt.Spellable (ok : Name → Prop) : Stmt → Prop
  | .bind p _ e _ => p.Spellable ok ∧ e.Spellable ok
  | .assign t v _ => t.Spellable ok ∧ v.Spellable ok
  | .eval v _ => v.Spellable ok
  | .ret v _ => ∀ e ∈ v, e.Spellable ok
  | .choose bs b _ => bs ≠ [] ∧ Branch.SpellableList ok bs ∧ Block.SpellableOption ok b
  | .loopWhile c b _ => c.Spellable ok ∧ Block.Spellable ok b
  | .loopFor p e b _ => p.Spellable ok ∧ e.Spellable ok ∧ Block.Spellable ok b
  | .loopUntil b c x _ => Block.Spellable ok b ∧ c.Spellable ok ∧ Block.SpellableOption ok x
  | .block b _ => Block.Spellable ok b
termination_by structural t => t

/-- The block can be written down. -/
def Block.Spellable (ok : Name → Prop) : Block → Prop
  | ⟨stmts, _⟩ => Stmt.SpellableList ok stmts
termination_by structural b => b

/-- An optional block can be written down. -/
def Block.SpellableOption (ok : Name → Prop) : Option Block → Prop
  | none => True
  | some b => Block.Spellable ok b
termination_by structural b => b

/-- All of several statements can be written down. -/
def Stmt.SpellableList (ok : Name → Prop) : List Stmt → Prop
  | [] => True
  | t :: ts => Stmt.Spellable ok t ∧ Stmt.SpellableList ok ts
termination_by structural ts => ts

/-- All of several branches can be written down. -/
def Branch.SpellableList (ok : Name → Prop) : List Branch → Prop
  | [] => True
  | ⟨c, b⟩ :: bs => c.Spellable ok ∧ Block.Spellable ok b ∧ Branch.SpellableList ok bs
termination_by structural bs => bs

end

/-- The callable can be written down. -/
def Callable.Spellable (c : Callable) : Prop :=
  IsIdentifier c.name ∧ c.params.Spellable ok ∧ c.body.Spellable ok

/-- The program can be written down. -/
def Program.Spellable (p : Program) : Prop := ∀ c ∈ p.callables, c.Spellable ok

/-! ### Under a change of spans -/

variable (f : Span → Span)

mutual

/-- Whether a type can be spelled does not depend on spans. -/
theorem TypeExpr.spellable_mapSpans : ∀ t : TypeExpr, (t.mapSpans f).Spellable ↔ t.Spellable
  | .named _ args _ => by
      simp only [mapSpans, Spellable, TypeExpr.spellableList_mapSpans args]
  | .tuple items _ => by simp only [mapSpans, Spellable, TypeExpr.spellableList_mapSpans items]
  | .array elem _ => by simp only [mapSpans, Spellable, TypeExpr.spellable_mapSpans elem]

/-- Nor does it for the types of a list. -/
theorem TypeExpr.spellableList_mapSpans : ∀ ts : List TypeExpr,
    SpellableList (mapSpansList f ts) ↔ SpellableList ts
  | [] => Iff.rfl
  | t :: ts => and_congr (TypeExpr.spellable_mapSpans t) (TypeExpr.spellableList_mapSpans ts)

end

/-- Whether a binding site can be spelled does not depend on spans. -/
theorem Binder.spellable_mapSpans (b : Binder) : (b.mapSpans f).Spellable ok ↔ b.Spellable ok := by
  obtain ⟨name, _ | type, span⟩ := b
  · simp [Spellable, mapSpans]
  · simp [Spellable, mapSpans, TypeExpr.spellable_mapSpans]

mutual

/-- Whether a pattern can be spelled does not depend on spans. -/
theorem Pattern.spellable_mapSpans : ∀ p : Pattern, (p.mapSpans f).Spellable ok ↔ p.Spellable ok
  | .binder b => b.spellable_mapSpans ok f
  | .tuple items _ => by simp only [mapSpans, Spellable, Pattern.spellableList_mapSpans items]
  | .discard _ | .invalid _ => Iff.rfl

/-- Nor does it for the patterns of a list. -/
theorem Pattern.spellableList_mapSpans : ∀ ps : List Pattern,
    SpellableList ok (mapSpansList f ps) ↔ SpellableList ok ps
  | [] => Iff.rfl
  | p :: ps => and_congr (Pattern.spellable_mapSpans p) (Pattern.spellableList_mapSpans ps)

end

mutual

/-- Whether parameters can be spelled does not depend on spans. -/
theorem Params.spellable_mapSpans : ∀ p : Params, (p.mapSpans f).Spellable ok ↔ p.Spellable ok
  | .binder b => b.spellable_mapSpans ok f
  | .tuple items _ =>
      and_congr (by rw [mapSpansList_eq_map, List.length_map]) (Params.spellableList_mapSpans items)
  | .unnamed _ => Iff.rfl

/-- Nor does it for the items of a list of parameters. -/
theorem Params.spellableList_mapSpans : ∀ ps : List Params,
    SpellableList ok (mapSpansList f ps) ↔ SpellableList ok ps
  | [] => Iff.rfl
  | p :: ps => and_congr (Params.spellable_mapSpans p) (Params.spellableList_mapSpans ps)

end

mutual

/-- Whether an expression can be spelled does not depend on spans. -/
theorem Expr.spellable_mapSpans : ∀ e : Expr, (e.mapSpans f).Spellable ok ↔ e.Spellable ok
  | .int _ _ | .bool _ _ | .str _ _ | .unit _ => Iff.rfl
  | .ref _ none _ => by simp [mapSpans, Spellable]
  | .ref _ (some args) _ => by simp [mapSpans, Spellable, TypeExpr.spellableList_mapSpans]
  | .unary _ e _ => by simp only [mapSpans, Spellable, Expr.spellable_mapSpans e]
  | .binary _ l r _ => and_congr (Expr.spellable_mapSpans l) (Expr.spellable_mapSpans r)
  | .call c args _ => and_congr (Expr.spellable_mapSpans c) (Expr.spellableList_mapSpans args)
  | .index b i _ => and_congr (Expr.spellable_mapSpans b) (Expr.spellable_mapSpans i)
  | .tuple items _ =>
      and_congr (by rw [mapSpansList_eq_map, ne_eq, List.map_eq_nil_iff])
        (Expr.spellableList_mapSpans items)
  | .array items _ => by simp only [mapSpans, Spellable, Expr.spellableList_mapSpans items]

/-- Nor does it for the expressions of a list. -/
theorem Expr.spellableList_mapSpans : ∀ es : List Expr,
    SpellableList ok (mapSpansList f es) ↔ SpellableList ok es
  | [] => Iff.rfl
  | e :: es => and_congr (Expr.spellable_mapSpans e) (Expr.spellableList_mapSpans es)

end

mutual

/-- Whether a statement can be spelled does not depend on spans. -/
theorem Stmt.spellable_mapSpans : ∀ t : Stmt, (t.mapSpans f).Spellable ok ↔ t.Spellable ok
  | .bind p _ e _ => and_congr (p.spellable_mapSpans ok f) (e.spellable_mapSpans ok f)
  | .assign t v _ => and_congr (t.spellable_mapSpans ok f) (v.spellable_mapSpans ok f)
  | .eval v _ => v.spellable_mapSpans ok f
  | .ret none _ => by simp [Stmt.mapSpans, Stmt.Spellable]
  | .ret (some v) _ => by simp [Stmt.mapSpans, Stmt.Spellable, v.spellable_mapSpans ok f]
  | .choose [] _ _ => by simp [Stmt.mapSpans, Stmt.Spellable, Branch.mapSpansList]
  | .choose (⟨c, b⟩ :: bs) x _ => by
      simp [Stmt.mapSpans, Stmt.Spellable, Branch.mapSpansList, Branch.SpellableList,
        c.spellable_mapSpans ok f, Block.spellable_mapSpans b, Branch.spellableList_mapSpans bs,
        Block.spellableOption_mapSpans x]
  | .loopWhile c b _ => and_congr (c.spellable_mapSpans ok f) (Block.spellable_mapSpans b)
  | .loopFor p e b _ =>
      and_congr (p.spellable_mapSpans ok f)
        (and_congr (e.spellable_mapSpans ok f) (Block.spellable_mapSpans b))
  | .loopUntil b c x _ =>
      and_congr (Block.spellable_mapSpans b)
        (and_congr (c.spellable_mapSpans ok f) (Block.spellableOption_mapSpans x))
  | .block b _ => by simp only [Stmt.mapSpans, Stmt.Spellable, Block.spellable_mapSpans b]

/-- Whether a block can be spelled does not depend on spans. -/
theorem Block.spellable_mapSpans : ∀ b : Block, (b.mapSpans f).Spellable ok ↔ b.Spellable ok
  | ⟨stmts, _⟩ => by
      simp only [Block.mapSpans, Block.Spellable, Stmt.spellableList_mapSpans stmts]

/-- Nor does it for a block that may be missing. -/
theorem Block.spellableOption_mapSpans : ∀ b : Option Block,
    Block.SpellableOption ok (Block.mapSpansOption f b) ↔ Block.SpellableOption ok b
  | none => Iff.rfl
  | some b => by
      simp only [Block.mapSpansOption, Block.SpellableOption, Block.spellable_mapSpans b]

/-- Nor does it for the statements of a list. -/
theorem Stmt.spellableList_mapSpans : ∀ ts : List Stmt,
    Stmt.SpellableList ok (Stmt.mapSpansList f ts) ↔ Stmt.SpellableList ok ts
  | [] => Iff.rfl
  | t :: ts => and_congr (Stmt.spellable_mapSpans t) (Stmt.spellableList_mapSpans ts)

/-- Nor does it for the branches of a choice. -/
theorem Branch.spellableList_mapSpans : ∀ bs : List Branch,
    Branch.SpellableList ok (Branch.mapSpansList f bs) ↔ Branch.SpellableList ok bs
  | [] => Iff.rfl
  | ⟨c, b⟩ :: bs =>
      and_congr (c.spellable_mapSpans ok f)
        (and_congr (Block.spellable_mapSpans b) (Branch.spellableList_mapSpans bs))

end

/-- Whether a callable can be spelled does not depend on spans. -/
theorem Callable.spellable_mapSpans (c : Callable) : (c.mapSpans f).Spellable ok ↔ c.Spellable ok :=
  and_congr_right' (and_congr (c.params.spellable_mapSpans ok f) (c.body.spellable_mapSpans ok f))

/-- Whether a program can be spelled does not depend on spans. -/
theorem Program.spellable_mapSpans (p : Program) : (p.mapSpans f).Spellable ok ↔ p.Spellable ok := by
  simp [Spellable, mapSpans, Callable.spellable_mapSpans]

/-! ### Local names apart -/

namespace ScopeEvent

/-- The name that an event binds or refers to. -/
def name? : ScopeEvent → Option Name
  | bind name | refer name => some name
  | enter | exit => none

/-- Every name that the events bind or refer to is as asked for. -/
def AllNames (es : List ScopeEvent) : Prop := ∀ e ∈ es, ∀ name ∈ e.name?, ok name

/-- No events have no names. -/
@[simp] theorem allNames_nil : AllNames ok [] := nofun

/-- The names in two rows of events are those of both. -/
@[simp] theorem allNames_append (es fs : List ScopeEvent) :
    AllNames ok (es ++ fs) ↔ AllNames ok es ∧ AllNames ok fs := List.forall_mem_append

/-- To open a frame adds no name. -/
@[simp] theorem allNames_enter (es : List ScopeEvent) :
    AllNames ok (enter :: es) ↔ AllNames ok es := by
  simp [AllNames, name?]

/-- To close a frame adds no name. -/
@[simp] theorem allNames_exit (es : List ScopeEvent) :
    AllNames ok (exit :: es) ↔ AllNames ok es := by
  simp [AllNames, name?]

/-- The names in bindings are the names that are bound. -/
@[simp] theorem allNames_map_bind (names : List Name) :
    AllNames ok (names.map bind) ↔ ∀ name ∈ names, ok name := by
  simp [AllNames, name?]

/-- The names in references are the names that are referred to. -/
@[simp] theorem allNames_map_refer (names : List Name) :
    AllNames ok (names.map refer) ↔ ∀ name ∈ names, ok name := by
  simp [AllNames, name?]

end ScopeEvent

open ScopeEvent (AllNames)

mutual

/-- A pattern can be spelled iff it can without its local names, and these can. -/
theorem Pattern.spellable_iff : ∀ p : Pattern,
    p.Spellable ok ↔ p.withoutLocals.Spellable (fun _ => True) ∧ ∀ name ∈ p.names, ok name
  | .binder b => by
      simp [Spellable, withoutLocals, names, Binder.Spellable, Binder.withoutLocals, and_comm]
  | .tuple items _ => by
      simp only [Spellable, withoutLocals, names, Pattern.spellableList_iff_names items]
  | .discard _ => by simp [Spellable, withoutLocals, names]
  | .invalid _ => by simp [Spellable, withoutLocals]

/-- So it is for the patterns of a list. -/
theorem Pattern.spellableList_iff_names : ∀ ps : List Pattern,
    SpellableList ok ps ↔
      SpellableList (fun _ => True) (withoutLocalsList ps) ∧ ∀ name ∈ namesList ps, ok name
  | [] => by simp [SpellableList, withoutLocalsList, namesList]
  | p :: ps => by
      simp only [SpellableList, withoutLocalsList, namesList, List.forall_mem_append,
        Pattern.spellable_iff p, Pattern.spellableList_iff_names ps]
      tauto

end

/-- Without their local names there are as many parameters. -/
theorem Params.length_withoutLocalsList : ∀ ps : List Params,
    (withoutLocalsList ps).length = ps.length
  | [] => rfl
  | _ :: ps => congrArg (· + 1) (length_withoutLocalsList ps)

mutual

/-- Parameters can be spelled iff they can without their local names, and these can. -/
theorem Params.spellable_iff : ∀ p : Params,
    p.Spellable ok ↔ p.withoutLocals.Spellable (fun _ => True) ∧ ∀ name ∈ p.names, ok name
  | .binder b => by
      simp [Spellable, withoutLocals, names, Binder.Spellable, Binder.withoutLocals, and_comm]
  | .tuple items _ => by
      simp only [Spellable, withoutLocals, names, Params.spellableList_iff_names items,
        Params.length_withoutLocalsList, and_assoc]
  | .unnamed _ => by simp [Spellable, withoutLocals, names]

/-- So it is for the items of a list of parameters. -/
theorem Params.spellableList_iff_names : ∀ ps : List Params,
    SpellableList ok ps ↔
      SpellableList (fun _ => True) (withoutLocalsList ps) ∧ ∀ name ∈ namesList ps, ok name
  | [] => by simp [SpellableList, withoutLocalsList, namesList]
  | p :: ps => by
      simp only [SpellableList, withoutLocalsList, namesList, List.forall_mem_append,
        Params.spellable_iff p, Params.spellableList_iff_names ps]
      tauto

end

/-- A reference can be spelled iff it can without its local name, and this can. -/
theorem Reference.spellable_iff : ∀ r : Reference,
    r.Spellable ok ↔ r.withoutLocals.Spellable (fun _ => True) ∧ ∀ name ∈ r.locals, ok name
  | .unqualified _ => by simp [Spellable, withoutLocals, locals]
  | .qualified _ _ => by simp [Spellable, withoutLocals, locals]

/-- Without local names no list of expressions becomes empty. -/
theorem Expr.withoutLocalsList_ne_nil : ∀ {es : List Expr}, withoutLocalsList es ≠ [] ↔ es ≠ []
  | [] => Iff.rfl
  | _ :: _ => by simp [withoutLocalsList]

mutual

/-- An expression can be spelled iff it can without its local names, and these can. -/
theorem Expr.spellable_iff : ∀ e : Expr,
    e.Spellable ok ↔ e.withoutLocals.Spellable (fun _ => True) ∧ ∀ name ∈ e.locals, ok name
  | .int _ _ | .bool _ _ | .str _ _ | .unit _ => by simp [Spellable, withoutLocals, locals]
  | .ref target _ _ => by
      simp only [Spellable, withoutLocals, locals, target.spellable_iff ok]
      tauto
  | .unary _ e _ => by simp only [Spellable, withoutLocals, locals, Expr.spellable_iff e]
  | .binary _ l r _ => by
      simp only [Spellable, withoutLocals, locals, List.forall_mem_append, Expr.spellable_iff l,
        Expr.spellable_iff r]
      tauto
  | .call f args _ => by
      simp only [Spellable, withoutLocals, locals, List.forall_mem_append, Expr.spellable_iff f,
        Expr.spellableList_iff_locals args]
      tauto
  | .index b i _ => by
      simp only [Spellable, withoutLocals, locals, List.forall_mem_append, Expr.spellable_iff b,
        Expr.spellable_iff i]
      tauto
  | .tuple items _ => by
      simp only [Spellable, withoutLocals, locals, Expr.spellableList_iff_locals items,
        Expr.withoutLocalsList_ne_nil, and_assoc]
  | .array items _ => by
      simp only [Spellable, withoutLocals, locals, Expr.spellableList_iff_locals items]

/-- So it is for the expressions of a list. -/
theorem Expr.spellableList_iff_locals : ∀ es : List Expr,
    SpellableList ok es ↔
      SpellableList (fun _ => True) (withoutLocalsList es) ∧ ∀ name ∈ localsList es, ok name
  | [] => by simp [SpellableList, withoutLocalsList, localsList]
  | e :: es => by
      simp only [SpellableList, withoutLocalsList, localsList, List.forall_mem_append,
        Expr.spellable_iff e, Expr.spellableList_iff_locals es]
      tauto

end

/-- The names in the events of an expression are its local names. -/
theorem Expr.allNames_events (e : Expr) : AllNames ok e.events ↔ ∀ name ∈ e.locals, ok name :=
  ScopeEvent.allNames_map_refer ok e.locals

/-- The names in the events of a pattern are the names that it binds. -/
theorem Pattern.allNames_events (p : Pattern) :
    AllNames ok p.events ↔ ∀ name ∈ p.names, ok name := ScopeEvent.allNames_map_bind ok p.names

/-- Without local names no list of branches becomes empty. -/
theorem Branch.withoutLocalsList_ne_nil : ∀ {bs : List Branch},
    withoutLocalsList bs ≠ [] ↔ bs ≠ []
  | [] => Iff.rfl
  | ⟨_, _⟩ :: _ => by simp [withoutLocalsList]

mutual

/-- A statement can be spelled iff it can without its local names, and all names in its events can. -/
theorem Stmt.spellable_iff : ∀ t : Stmt,
    t.Spellable ok ↔ t.withoutLocals.Spellable (fun _ => True) ∧ AllNames ok t.events
  | .bind p _ e _ => by
      simp only [Stmt.Spellable, Stmt.withoutLocals, Stmt.events, ScopeEvent.allNames_append, p.spellable_iff ok,
        e.spellable_iff ok, Expr.allNames_events, Pattern.allNames_events]
      tauto
  | .assign t v _ => by
      simp only [Stmt.Spellable, Stmt.withoutLocals, Stmt.events, ScopeEvent.allNames_append, t.spellable_iff ok,
        v.spellable_iff ok, Expr.allNames_events]
      tauto
  | .eval v _ => by
      simp only [Stmt.Spellable, Stmt.withoutLocals, Stmt.events, v.spellable_iff ok, Expr.allNames_events]
  | .ret none _ => by simp [Stmt.Spellable, Stmt.withoutLocals, Stmt.events, Expr.eventsOption]
  | .ret (some e) _ => by
      simp [Stmt.Spellable, Stmt.withoutLocals, Stmt.events, Expr.eventsOption, e.spellable_iff ok,
        Expr.allNames_events]
  | .choose bs b _ => by
      simp only [Stmt.Spellable, Stmt.withoutLocals, Stmt.events, ScopeEvent.allNames_append,
        Branch.withoutLocalsList_ne_nil, Branch.spellableList_iff_events bs,
        Block.spellableOption_iff b]
      tauto
  | .loopWhile c b _ => by
      simp only [Stmt.Spellable, Stmt.withoutLocals, Stmt.events, ScopeEvent.allNames_append, c.spellable_iff ok,
        Block.spellable_iff b, Expr.allNames_events]
      tauto
  | .loopFor p e b _ => by
      simp only [Stmt.Spellable, Stmt.withoutLocals, Stmt.events, List.cons_append, ScopeEvent.allNames_append,
        ScopeEvent.allNames_enter, ScopeEvent.allNames_exit, ScopeEvent.allNames_nil,
        p.spellable_iff ok, e.spellable_iff ok, Block.spellable_iff b, Expr.allNames_events,
        Pattern.allNames_events]
      tauto
  | .loopUntil ⟨stmts, _⟩ c x _ => by
      simp only [Stmt.Spellable, Block.Spellable, Stmt.withoutLocals, Block.withoutLocals, Stmt.events,
        Block.innerEvents, List.cons_append, ScopeEvent.allNames_append, ScopeEvent.allNames_enter,
        ScopeEvent.allNames_exit, ScopeEvent.allNames_nil, Stmt.spellableList_iff_events stmts,
        c.spellable_iff ok, Block.spellableOption_iff x, Expr.allNames_events]
      tauto
  | .block b _ => by simp only [Stmt.Spellable, Stmt.withoutLocals, Stmt.events, Block.spellable_iff b]

/-- A block can be spelled iff it can without its local names, and all names in its events can. -/
theorem Block.spellable_iff : ∀ b : Block,
    b.Spellable ok ↔ b.withoutLocals.Spellable (fun _ => True) ∧ AllNames ok b.events
  | ⟨stmts, _⟩ => by
      simp [Block.Spellable, Block.withoutLocals, Block.events, Stmt.spellableList_iff_events stmts]

/-- So it is for a block that may be missing. -/
theorem Block.spellableOption_iff : ∀ b : Option Block,
    Block.SpellableOption ok b ↔
      Block.SpellableOption (fun _ => True) (Block.withoutLocalsOption b) ∧ AllNames ok (Block.eventsOption b)
  | none => by simp [Block.SpellableOption, Block.withoutLocalsOption, Block.eventsOption]
  | some b => by
      simp only [Block.SpellableOption, Block.withoutLocalsOption, Block.eventsOption, Block.spellable_iff b]

/-- So it is for the statements of a list. -/
theorem Stmt.spellableList_iff_events : ∀ ts : List Stmt,
    Stmt.SpellableList ok ts ↔
      Stmt.SpellableList (fun _ => True) (Stmt.withoutLocalsList ts) ∧ AllNames ok (Stmt.eventsList ts)
  | [] => by simp [Stmt.SpellableList, Stmt.withoutLocalsList, Stmt.eventsList]
  | t :: ts => by
      simp only [Stmt.SpellableList, Stmt.withoutLocalsList, Stmt.eventsList, ScopeEvent.allNames_append,
        Stmt.spellable_iff t, Stmt.spellableList_iff_events ts]
      tauto

/-- So it is for the branches of a choice. -/
theorem Branch.spellableList_iff_events : ∀ bs : List Branch,
    Branch.SpellableList ok bs ↔
      Branch.SpellableList (fun _ => True) (Branch.withoutLocalsList bs) ∧ AllNames ok (Branch.eventsList bs)
  | [] => by simp [Branch.SpellableList, Branch.withoutLocalsList, Branch.eventsList]
  | ⟨c, b⟩ :: bs => by
      simp only [Branch.SpellableList, Branch.withoutLocalsList, Branch.eventsList, ScopeEvent.allNames_append,
        c.spellable_iff ok, Block.spellable_iff b, Branch.spellableList_iff_events bs,
        Expr.allNames_events]
      tauto

end

/-- A callable can be written down iff it can be without its local names, and all its local names can
be. -/
theorem Callable.spellable_iff (c : Callable) :
    c.Spellable ok ↔ c.withoutLocals.Spellable (fun _ => True) ∧ AllNames ok c.events := by
  simp only [Spellable, withoutLocals, events, ScopeEvent.allNames_append, Params.events,
    ScopeEvent.allNames_map_bind, c.params.spellable_iff ok, c.body.spellable_iff ok]
  tauto

end Freshen
