import Freshen.Tree.Program

/-!
# Scopes along a walk

What a callable does to scopes, in the order in which it is evaluated, and what its local references
refer to by the rules of lexical scoping.

- `ScopeEvent`: a frame opens or closes, a name is bound, a name is referred to.
- `Callable.events`: the events of a callable.  Parameters are bound in the root frame, every block
  has a frame, a `repeat` has one frame for its body, its condition and its fixup, a `for` has one
  for its pattern and its body, and a `let` reads its initializer before it binds its pattern.
- `Callable.sites`: the names at the binding sites, numbered by their position.
- `Callable.references`: each local reference with the number of the site that it refers to, or with
  none if it is free.

**Key results.** `Callable.getElem?_sites`: a reference that is not free has the name of its site;
`Callable.balanced_events`: frames open and close in pairs.
-/

namespace Freshen

/-- What happens to scopes at one point of a walk. -/
inductive ScopeEvent where
  /-- A frame opens. -/
  | enter
  /-- The innermost frame closes. -/
  | exit
  /-- A name is bound in the innermost frame. -/
  | bind (name : Name)
  /-- A local name is referred to. -/
  | refer (name : Name)
deriving DecidableEq

/-! ### The events of a tree -/

/-- The local name in a reference, if it is one. -/
def Reference.locals : Reference → List Name
  | unqualified name => [name]
  | qualified _ _ => []

mutual

/-- The names of the local references in an expression, in walk order. -/
def Expr.locals : Expr → List Name
  | .int _ _ => []
  | .bool _ _ => []
  | .str _ _ => []
  | .unit _ => []
  | .ref target _ _ => target.locals
  | .unary _ e _ => Expr.locals e
  | .binary _ l r _ => Expr.locals l ++ Expr.locals r
  | .call f as _ => Expr.locals f ++ Expr.localsList as
  | .index b i _ => Expr.locals b ++ Expr.locals i
  | .tuple is _ => Expr.localsList is
  | .array is _ => Expr.localsList is
termination_by structural e => e

/-- The names of the local references in several expressions. -/
def Expr.localsList : List Expr → List Name
  | [] => []
  | e :: es => Expr.locals e ++ Expr.localsList es
termination_by structural es => es

end

/-- The events of an expression: it only refers to names. -/
def Expr.events (e : Expr) : List ScopeEvent := e.locals.map .refer

/-- The events of an optional expression. -/
def Expr.eventsOption : Option Expr → List ScopeEvent
  | none => []
  | some e => e.events

/-- The events of a pattern: it only binds names. -/
def Pattern.events (p : Pattern) : List ScopeEvent := p.names.map .bind

/-- The events of parameters: they only bind names. -/
def Params.events (p : Params) : List ScopeEvent := p.names.map .bind

mutual

/-- The events of a statement. -/
def Stmt.events : Stmt → List ScopeEvent
  | .bind p _ e _ => e.events ++ p.events
  | .assign t v _ => t.events ++ v.events
  | .eval v _ => v.events
  | .ret v _ => Expr.eventsOption v
  | .choose bs b _ => Branch.eventsList bs ++ Block.eventsOption b
  | .loopWhile c b _ => c.events ++ Block.events b
  | .loopFor p e b _ => e.events ++ (.enter :: (p.events ++ Block.events b) ++ [.exit])
  | .loopUntil b c f _ =>
      .enter :: (Block.innerEvents b ++ (c.events ++ Block.eventsOption f)) ++ [.exit]
  | .block b _ => Block.events b
termination_by structural t => t

/-- The events of a block, which has a frame of its own. -/
def Block.events : Block → List ScopeEvent
  | ⟨stmts, _⟩ => .enter :: Stmt.eventsList stmts ++ [.exit]
termination_by structural b => b

/-- The events inside a block, without its frame. -/
def Block.innerEvents : Block → List ScopeEvent
  | ⟨stmts, _⟩ => Stmt.eventsList stmts
termination_by structural b => b

/-- The events of an optional block. -/
def Block.eventsOption : Option Block → List ScopeEvent
  | none => []
  | some b => Block.events b
termination_by structural b => b

/-- The events of several statements. -/
def Stmt.eventsList : List Stmt → List ScopeEvent
  | [] => []
  | t :: ts => Stmt.events t ++ Stmt.eventsList ts
termination_by structural ts => ts

/-- The events of the branches of a choice. -/
def Branch.eventsList : List Branch → List ScopeEvent
  | [] => []
  | ⟨c, b⟩ :: bs => c.events ++ (Block.events b ++ Branch.eventsList bs)
termination_by structural bs => bs

end

/-- The events of a callable, whose root frame is open from the start. -/
def Callable.events (c : Callable) : List ScopeEvent := c.params.events ++ c.body.events

/-! ### Frames open and close in pairs -/

namespace ScopeEvent

/-- The name that an event binds. -/
def bound? : ScopeEvent → Option Name
  | bind name => some name
  | _ => none

/-- The names that events bind, in order. -/
def boundNames (events : List ScopeEvent) : List Name := events.filterMap bound?

/-- Where nothing happens, nothing is bound. -/
@[simp] theorem boundNames_nil : boundNames [] = [] := rfl

/-- To open a frame binds nothing. -/
@[simp] theorem boundNames_enter (es : List ScopeEvent) :
    boundNames (enter :: es) = boundNames es := rfl

/-- To close a frame binds nothing. -/
@[simp] theorem boundNames_exit (es : List ScopeEvent) :
    boundNames (exit :: es) = boundNames es := rfl

/-- The name of a binding comes before those that are bound later. -/
@[simp] theorem boundNames_bind (n : Name) (es : List ScopeEvent) :
    boundNames (bind n :: es) = n :: boundNames es := rfl

/-- A reference binds nothing. -/
@[simp] theorem boundNames_refer (n : Name) (es : List ScopeEvent) :
    boundNames (refer n :: es) = boundNames es := rfl

/-- Two rows of events bind what the first binds and then what the second binds. -/
@[simp] theorem boundNames_append (es fs : List ScopeEvent) :
    boundNames (es ++ fs) = boundNames es ++ boundNames fs := List.filterMap_append

/-- Bindings of names bind these names. -/
@[simp] theorem boundNames_map_bind (ns : List Name) : boundNames (ns.map bind) = ns := by
  induction ns with
  | nil => rfl
  | cons n ns ih => simp [ih]

/-- References bind no names. -/
@[simp] theorem boundNames_map_refer (ns : List Name) : boundNames (ns.map refer) = [] := by
  induction ns with
  | nil => rfl
  | cons n ns ih => simp [ih]

/-- Each frame that opens closes again, and no other frame closes. -/
inductive Balanced : List ScopeEvent → Prop
  | nil : Balanced []
  | bind (n : Name) {es : List ScopeEvent} : Balanced es → Balanced (bind n :: es)
  | refer (n : Name) {es : List ScopeEvent} : Balanced es → Balanced (refer n :: es)
  | frame {inner es : List ScopeEvent} :
      Balanced inner → Balanced es → Balanced (enter :: inner ++ exit :: es)

namespace Balanced

/-- Balanced events may follow each other. -/
theorem append {es fs : List ScopeEvent} (hes : Balanced es) (hfs : Balanced fs) :
    Balanced (es ++ fs) := by
  induction hes with
  | nil => exact hfs
  | bind n _ ih => exact .bind n ih
  | refer n _ ih => exact .refer n ih
  | frame hinner _ _ ih => simpa using Balanced.frame hinner ih

/-- Balanced events may stand in a frame. -/
theorem inFrame {es : List ScopeEvent} (h : Balanced es) : Balanced (enter :: es ++ [exit]) :=
  .frame h .nil

/-- Bindings open and close no frame. -/
theorem map_bind : ∀ ns : List Name, Balanced (ns.map ScopeEvent.bind)
  | [] => .nil
  | n :: ns => .bind n (map_bind ns)

/-- References open and close no frame. -/
theorem map_refer : ∀ ns : List Name, Balanced (ns.map ScopeEvent.refer)
  | [] => .nil
  | n :: ns => .refer n (map_refer ns)

end Balanced

end ScopeEvent

/-- The events of an expression are balanced. -/
theorem Expr.balanced_events (e : Expr) : ScopeEvent.Balanced e.events := .map_refer _

/-- The events of an expression that may be missing are balanced. -/
theorem Expr.balanced_eventsOption : ∀ e : Option Expr, ScopeEvent.Balanced (eventsOption e)
  | none => .nil
  | some e => e.balanced_events

/-- The events of a pattern are balanced. -/
theorem Pattern.balanced_events (p : Pattern) : ScopeEvent.Balanced p.events := .map_bind _

/-- The events of parameters are balanced. -/
theorem Params.balanced_events (p : Params) : ScopeEvent.Balanced p.events := .map_bind _

mutual

/-- The events of a statement are balanced. -/
theorem Stmt.balanced_events : ∀ t : Stmt, ScopeEvent.Balanced t.events
  | .bind p _ e _ => e.balanced_events.append p.balanced_events
  | .assign t v _ => t.balanced_events.append v.balanced_events
  | .eval v _ => v.balanced_events
  | .ret v _ => Expr.balanced_eventsOption v
  | .choose bs b _ => (Branch.balanced_eventsList bs).append (Block.balanced_eventsOption b)
  | .loopWhile c b _ => c.balanced_events.append (Block.balanced_events b)
  | .loopFor p e b _ =>
      e.balanced_events.append (p.balanced_events.append (Block.balanced_events b)).inFrame
  | .loopUntil b c f _ =>
      ((Block.balanced_innerEvents b).append
        (c.balanced_events.append (Block.balanced_eventsOption f))).inFrame
  | .block b _ => Block.balanced_events b

/-- The events of a block are balanced. -/
theorem Block.balanced_events : ∀ b : Block, ScopeEvent.Balanced b.events
  | ⟨stmts, _⟩ => (Stmt.balanced_eventsList stmts).inFrame

/-- The events inside a block are balanced. -/
theorem Block.balanced_innerEvents : ∀ b : Block, ScopeEvent.Balanced b.innerEvents
  | ⟨stmts, _⟩ => Stmt.balanced_eventsList stmts

/-- The events of a block that may be missing are balanced. -/
theorem Block.balanced_eventsOption :
    ∀ b : Option Block, ScopeEvent.Balanced (Block.eventsOption b)
  | none => .nil
  | some b => Block.balanced_events b

/-- The events of statements are balanced. -/
theorem Stmt.balanced_eventsList : ∀ ts : List Stmt, ScopeEvent.Balanced (Stmt.eventsList ts)
  | [] => .nil
  | t :: ts => (Stmt.balanced_events t).append (Stmt.balanced_eventsList ts)

/-- The events of the branches of a choice are balanced. -/
theorem Branch.balanced_eventsList :
    ∀ bs : List Branch, ScopeEvent.Balanced (Branch.eventsList bs)
  | [] => .nil
  | ⟨c, b⟩ :: bs =>
      c.balanced_events.append ((Block.balanced_events b).append (Branch.balanced_eventsList bs))

end

/-- The frames of a callable open and close in pairs. -/
theorem Callable.balanced_events (c : Callable) : ScopeEvent.Balanced c.events :=
  c.params.balanced_events.append c.body.balanced_events

/-! ### What references refer to -/

/-- The binding sites in view: the open frames, the innermost first, each with the names bound in it
and the numbers of their sites, the latest first; and the number of the next site. -/
structure Sites where
  frames : List (List (Name × Nat))
  next : Nat

namespace Sites

/-- The root frame, before anything is bound. -/
def root : Sites := ⟨[[]], 0⟩

/-- The site that a name refers to: the latest one of that name in the innermost frame that has
one. -/
def lookup (s : Sites) (name : Name) : Option Nat := s.frames.findSome? (·.lookup name)

/-- The binding sites in view after an event. -/
def step (s : Sites) : ScopeEvent → Sites
  | .enter => { s with frames := [] :: s.frames }
  | .exit => { s with frames := s.frames.tail }
  | .bind name => ⟨s.frames.modifyHead ((name, s.next) :: ·), s.next + 1⟩
  | .refer _ => s

/-- The local references among the events that follow, each with the site that it refers to. -/
def references : Sites → List ScopeEvent → List (Name × Option Nat)
  | _, [] => []
  | s, .refer name :: events => (name, s.lookup name) :: references s events
  | s, .enter :: events => references (s.step .enter) events
  | s, .exit :: events => references (s.step .exit) events
  | s, .bind name :: events => references (s.step (.bind name)) events

/-- The site that a name refers to is in view. -/
theorem exists_mem_of_lookup {s : Sites} {name : Name} {site : Nat} (h : s.lookup name = some site) :
    ∃ frame ∈ s.frames, (name, site) ∈ frame := by
  obtain ⟨frame, hframe, hsite⟩ := List.exists_of_findSome?_eq_some h
  obtain ⟨l₁, l₂, rfl, -⟩ := List.lookup_eq_some_iff.1 hsite
  exact ⟨_, hframe, by simp⟩

/-- A name refers to no site iff no site in view bears it. -/
theorem lookup_eq_none_iff {s : Sites} {name : Name} :
    s.lookup name = none ↔ ∀ frame ∈ s.frames, ∀ site ∈ frame, site.1 ≠ name := by
  simp only [lookup, List.findSome?_eq_none_iff, List.lookup_eq_none_iff, bne_iff_ne]
  exact forall₂_congr fun _ _ => forall₂_congr fun _ _ => ne_comm

/-- What holds of the sites in view, and of the site that an event binds, if it does, holds of the sites in
view after the event. -/
theorem forall_step {P : Name × Nat → Prop} {s : Sites} {e : ScopeEvent}
    (h : ∀ frame ∈ s.frames, ∀ site ∈ frame, P site)
    (hbind : ∀ name, e = .bind name → P (name, s.next)) :
    ∀ frame ∈ (s.step e).frames, ∀ site ∈ frame, P site := by
  obtain ⟨frames, next⟩ := s
  cases e with
  | enter => exact List.forall_mem_cons.2 ⟨nofun, h⟩
  | exit => exact fun frame hframe => h frame (List.mem_of_mem_tail hframe)
  | refer name => exact h
  | bind name =>
      cases frames with
      | nil => exact nofun
      | cons top frames =>
          obtain ⟨htop, hframes⟩ := List.forall_mem_cons.1 h
          exact List.forall_mem_cons.2 ⟨List.forall_mem_cons.2 ⟨hbind name rfl, htop⟩, hframes⟩

/-- Every site in view bears the name that stands at its number in `names`. -/
def Bears (s : Sites) (names : List Name) : Prop :=
  ∀ frame ∈ s.frames, ∀ site ∈ frame, names[site.2]? = some site.1

/-- After an event, the sites in view still bear their names, if a new one bears the name that is bound. -/
theorem Bears.step {s : Sites} {names : List Name} {e : ScopeEvent} (h : s.Bears names)
    (hbind : ∀ name, e = .bind name → names[s.next]? = some name) : (s.step e).Bears names :=
  forall_step h hbind

/-- A reference that is not free has the name of its site.  `before` are the names bound before the
events. -/
theorem getElem?_of_mem_references {name : Name} {site : Nat} {events : List ScopeEvent} {s : Sites}
    {before : List Name} (hs : s.Bears (before ++ ScopeEvent.boundNames events))
    (hnext : s.next = before.length) (h : (name, some site) ∈ s.references events) :
    (before ++ ScopeEvent.boundNames events)[site]? = some name := by
  induction events generalizing s before with
  | nil => exact absurd h List.not_mem_nil
  | cons event events ih =>
      cases event with
      | enter => exact ih (hs.step (e := .enter) fun _ => nofun) hnext h
      | exit => exact ih (hs.step (e := .exit) fun _ => nofun) hnext h
      | refer n =>
          rcases List.mem_cons.1 h with h | h
          · obtain ⟨rfl, hsite⟩ := Prod.mk.inj h
            obtain ⟨frame, hframe, hmem⟩ := exists_mem_of_lookup hsite.symm
            exact hs frame hframe _ hmem
          · exact ih hs hnext h
      | bind n =>
          have hsplit : before ++ ScopeEvent.boundNames (.bind n :: events) =
              (before ++ [n]) ++ ScopeEvent.boundNames events := by simp
          have hs' := hs.step (e := .bind n) fun name hname => by
            obtain rfl := ScopeEvent.bind.inj hname
            simp [hnext]
          rw [hsplit] at hs' ⊢
          exact ih hs' (by simp [step, hnext]) h

end Sites

namespace Callable

/-- The names at the binding sites of a callable, in walk order.  A site is known by its position in
this list. -/
def sites (c : Callable) : List Name := ScopeEvent.boundNames c.events

/-- The local references of a callable in walk order, each with the site that it refers to, or with
none if it is free. -/
def references (c : Callable) : List (Name × Option Nat) := Sites.root.references c.events

/-- A reference that is not free has the name of its site. -/
theorem getElem?_sites {c : Callable} {name : Name} {site : Nat}
    (h : (name, some site) ∈ c.references) : c.sites[site]? = some name := by
  have hroot : Sites.root.Bears ([] ++ ScopeEvent.boundNames c.events) := by
    simp [Sites.Bears, Sites.root]
  exact Sites.getElem?_of_mem_references hroot rfl h

end Callable

end Freshen
