import Freshen.Traversal.Observer
import Freshen.Traversal.Rebuilder

/-!
# Logs of walks

A traced walk writes down each node before it goes on to what is inside it.

- `Trace.observer`, `Trace.rebuilder`: walks that log every node.  The rebuilder can be told to stop
  at an entry, and to change references.
- `Trace.Entry.readLine`, `Trace.Entry.rebuildLine`: the wording of the two logs.
- `Trace.countExprs`: a reading walk that looks at expressions only.
-/

namespace Freshen

/-- What kind of statement it is. -/
def Stmt.tag : Stmt → String
  | .bind _ mutable _ _ => if mutable then "let mut" else "let"
  | .assign _ _ _ => "set"
  | .eval _ _ => "expr"
  | .ret _ _ => "return"
  | .choose _ _ _ => "if"
  | .loopWhile _ _ _ => "while"
  | .loopFor _ _ _ _ => "for"
  | .loopUntil _ _ _ _ => "repeat"
  | .block _ _ => "block"

/-- Whether a reference is local or global, and its spelling. -/
def Reference.tag : Reference → String
  | .unqualified name => s!"local {name}"
  | .qualified qualifiers name => s!"global {(Reference.qualified qualifiers name).text}"

/-- What kind of expression it is. -/
def Expr.tag : Expr → String
  | .int value _ => s!"int {value.toInt}"
  | .bool value _ => if value then "bool true" else "bool false"
  | .str value _ => s!"str {value.utf8ByteSize}"
  | .unit _ => "unit"
  | .ref target _ _ => target.tag
  | .unary .neg _ _ => "unary -"
  | .unary .not _ _ => "unary not"
  | .binary op _ _ _ => s!"binary {op.symbol}"
  | .call _ args _ => s!"call {args.length}"
  | .index _ _ _ => "index"
  | .tuple items _ => s!"tuple {items.length}"
  | .array items _ => s!"array {items.length}"

namespace Trace

/-- One line of a log. -/
inductive Entry where
  | program (p : Program)
  | callable (c : Callable)
  | params (p : Params)
  | block (b : Block)
  | stmt (t : Stmt)
  /-- The inside of a `for`. -/
  | loopFor (pattern : Pattern) (source : Expr) (body : Block)
  /-- The inside of a `repeat`. -/
  | loopUntil (body : Block) (cond : Expr) (fixup : Option Block)
  | pattern (p : Pattern)
  | expr (e : Expr)
  /-- An identifier in an expression. -/
  | reference (target : Reference) (args : Option (List TypeExpr)) (span : Span)

/-- Names between brackets. -/
def bracketed (names : List Name) : String := "[" ++ ",".intercalate names ++ "]"

namespace Entry

/-- The wording in the log of a reading walk. -/
def readLine : Entry → String
  | program p => s!"module {p.callables.length}"
  | callable c => s!"callable {c.span.text} {c.name}"
  | params p => s!"params {bracketed p.names}"
  | block b => s!"block {b.span.text} {b.stmts.length}"
  | stmt t => s!"stmt {t.span.text} {t.tag}"
  | loopFor _ _ _ => "for"
  | loopUntil _ _ _ => "repeat"
  | pattern p => s!"pattern {p.span.text} {bracketed p.names}"
  | expr e => s!"expr {e.span.text} {e.tag}"
  | reference target _ s => s!"ident {s.text} {target.tag}"

/-- The wording in the log of a rebuilding walk. -/
def rebuildLine : Entry → String
  | program _ => "module"
  | callable c => s!"callable {c.name}"
  | params p => s!"params {bracketed p.names}"
  | block b => s!"block {b.stmts.length}"
  | stmt t => s!"stmt {t.tag}"
  | loopFor _ _ _ => "for"
  | loopUntil _ _ _ => "repeat"
  | pattern p => s!"pattern {p.span.text} {bracketed p.names}"
  | expr e => s!"expr {e.tag}"
  | reference target _ s => s!"ident {s.text} {target.tag}"

end Entry

/-- The entries logged so far. -/
abbrev Log := Array Entry

/-- Logs an entry, then goes on. -/
def logged (entry : Entry) (walk : StateM Log Unit) : StateM Log Unit := do
  modify (·.push entry)
  walk

/-- A reading walk that logs every node. -/
def observer : Observer (StateM Log) where
  program p walk := logged (.program p) walk
  callable c walk := logged (.callable c) walk
  params p walk := logged (.params p) walk
  block b walk := logged (.block b) walk
  stmt t walk := logged (.stmt t) walk
  pattern p walk := logged (.pattern p) walk
  expr e walk := logged (.expr e) walk

/-- The log of a reading walk of a program. -/
def read (p : Program) : List Entry := ((observer.visitProgram p).run #[]).2.toList

/-- A computation that logs and may stop. -/
abbrev Stoppable (ε : Type) := ExceptT ε (StateM Log)

variable {ε α : Type}

/-- Logs an entry and stops if `stop` says so. -/
def checked (stop : Entry → Option ε) (entry : Entry) : Stoppable ε Unit := do
  modify (·.push entry)
  match stop entry with
  | some e => throw e
  | none => return ()

/-- A rebuilding walk that logs every node, stops where `stop` says so, and puts `change target` in
the place of each reference. -/
def rebuilder (stop : Entry → Option ε) (change : Reference → Reference) :
    Rebuilder (Stoppable ε) where
  program p walk := do checked stop (.program p); walk
  callable c walk := do checked stop (.callable c); walk
  params p walk := do checked stop (.params p); walk
  block b walk := do checked stop (.block b); walk
  stmt t walk := do checked stop (.stmt t); walk
  loopFor p e b source pattern body := do
    checked stop (.loopFor p e b)
    let e' ← source
    let p' ← pattern
    let b' ← body
    return (e', p', b')
  loopUntil b c f walk := do checked stop (.loopUntil b c f); walk
  pattern p walk := do checked stop (.pattern p); walk
  expr e walk := do checked stop (.expr e); walk
  reference target args s := do
    checked stop (.reference target args s)
    return .ref (change target) args s

/-- The outcome of a rebuilding walk of a program, and its log. -/
def rebuild (stop : Entry → Option ε) (change : Reference → Reference) (p : Program) :
    Except ε Program × List Entry :=
  let (result, log) := ((rebuilder stop change).rebuildProgram p).run.run #[]
  (result, log.toList)

/-- Why a rebuilding walk stopped at a name. -/
inductive Poisoned where
  | bound (name : Name)
  | used (name : Name)
deriving DecidableEq

/-- The wording of the reason. -/
def Poisoned.message : Poisoned → String
  | bound name => s!"bound {name}"
  | used name => s!"used {name}"

/-- Stops where a pattern binds `poison` or a local reference is `poison`. -/
def poisonStop (poison : Name) : Entry → Option Poisoned
  | .pattern (.binder b) => if b.name = poison then some (.bound b.name) else none
  | .reference (.unqualified name) _ _ => if name = poison then some (.used name) else none
  | _ => none

/-- Marks local references. -/
def markReference : Reference → Reference
  | .unqualified name => .unqualified ("r_" ++ name)
  | .qualified qualifiers name => .qualified qualifiers name

/-- A reading walk that counts expressions. -/
def exprCounter : Observer (StateM Nat) where
  expr _ walk := do
    modify (· + 1)
    walk

/-- Number of expressions in a program. -/
def countExprs (p : Program) : Nat := ((exprCounter.visitProgram p).run 0).2

/-- The program rebuilt by the walk that changes nothing. -/
def rebuilt (p : Program) : Program := Id.run (Rebuilder.rebuildProgram {} p)

end Trace

end Freshen
