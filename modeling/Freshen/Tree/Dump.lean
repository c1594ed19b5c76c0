import Freshen.Text.Dump
import Freshen.Tree.Program

/-!
# Dumps of trees

Each node kind as a value to inspect.  Expressions and statements are written on one line in every
form, followed by their span.
-/

namespace Freshen

/-- A span. -/
def Span.dump (s : Span) : Dump := .atom s.text

namespace Dump

/-- A node on one line, followed by where it stands. -/
def located (d : Dump) (s : Span) : Dump := atom (d.compact ++ " @ " ++ s.text)

end Dump

mutual

/-- A type annotation as a value to inspect. -/
def TypeExpr.dump : TypeExpr → Dump
  | .named name args s =>
      .record "Named"
        [("name", .ofName name), ("args", .list (TypeExpr.dumpList args)), ("span", s.dump)]
  | .tuple items s => .apply "Tuple" [.list (TypeExpr.dumpList items), s.dump]
  | .array elem s => .apply "Array" [TypeExpr.dump elem, s.dump]
termination_by structural t => t

/-- Several type annotations. -/
def TypeExpr.dumpList : List TypeExpr → List Dump
  | [] => []
  | t :: ts => TypeExpr.dump t :: TypeExpr.dumpList ts
termination_by structural ts => ts

end

/-- A bound name as a value to inspect. -/
def Binder.dump (b : Binder) : Dump :=
  .record "LocalDecl"
    [("name", .ofName b.name), ("ty", .ofOption (b.type.map TypeExpr.dump)), ("span", b.span.dump)]

mutual

/-- A pattern as a value to inspect. -/
def Pattern.dump : Pattern → Dump
  | .binder b => .apply "Name" [b.dump]
  | .tuple items s => .apply "Tuple" [.list (Pattern.dumpList items), s.dump]
  | .discard s => .apply "Discarded" [s.dump]
  | .invalid s => .apply "Invalid" [s.dump]
termination_by structural p => p

/-- Several patterns. -/
def Pattern.dumpList : List Pattern → List Dump
  | [] => []
  | p :: ps => Pattern.dump p :: Pattern.dumpList ps
termination_by structural ps => ps

end

mutual

/-- Parameters as a value to inspect. -/
def Params.dump : Params → Dump
  | .binder b => .apply "Named" [b.dump]
  | .tuple items s => .apply "Tuple" [.list (Params.dumpList items), s.dump]
  | .unnamed s => .apply "Unnamed" [s.dump]
termination_by structural p => p

/-- Several parameters. -/
def Params.dumpList : List Params → List Dump
  | [] => []
  | p :: ps => Params.dump p :: Params.dumpList ps
termination_by structural ps => ps

end

/-- A reference as a value to inspect. -/
def Reference.dump : Reference → Dump
  | .unqualified name => .apply "Local" [.ofName name]
  | .qualified qualifiers name =>
      .apply "Global"
        [.record "QualifiedName"
          [("namespace", .list (qualifiers.map .ofName)), ("name", .ofName name)]]

mutual

/-- An expression as a value to inspect. -/
def Expr.dump : Expr → Dump
  | .int value s => .located (.apply "Int" [.atom (toString value.toInt)]) s
  | .bool value s => .located (.apply "Bool" [.ofBool value]) s
  | .str value s => .located (.apply "Str" [.ofString value]) s
  | .unit s => .located (.atom "Unit") s
  | .ref target args s =>
      .located (.record "Ident"
        [("symbol", target.dump),
          ("type_args", .ofOption (args.map fun ts => .list (TypeExpr.dumpList ts)))]) s
  | .unary op operand s =>
      .located (.record "Unary" [("op", .atom op.label), ("operand", Expr.dump operand)]) s
  | .binary op lhs rhs s =>
      .located (.record "Binary"
        [("op", .atom op.label), ("lhs", Expr.dump lhs), ("rhs", Expr.dump rhs)]) s
  | .call callee args s =>
      .located
        (.record "Call" [("callee", Expr.dump callee), ("args", .list (Expr.dumpList args))]) s
  | .index base position s =>
      .located (.record "Index" [("base", Expr.dump base), ("index", Expr.dump position)]) s
  | .tuple items s => .located (.apply "Tuple" [.list (Expr.dumpList items)]) s
  | .array items s => .located (.apply "Array" [.list (Expr.dumpList items)]) s
termination_by structural e => e

/-- Several expressions. -/
def Expr.dumpList : List Expr → List Dump
  | [] => []
  | e :: es => Expr.dump e :: Expr.dumpList es
termination_by structural es => es

end

mutual

/-- A statement as a value to inspect. -/
def Stmt.dump : Stmt → Dump
  | .bind pattern mutable init s =>
      .located (.record "Let"
        [("pattern", pattern.dump), ("mutable", .ofBool mutable), ("init", init.dump)]) s
  | .assign target value s =>
      .located (.record "Set" [("target", target.dump), ("value", value.dump)]) s
  | .eval value s => .located (.apply "Expr" [value.dump]) s
  | .ret value s => .located (.apply "Return" [.ofOption (value.map Expr.dump)]) s
  | .choose branches otherwise s =>
      .located (.record "If"
        [("branches", .list (Branch.dumpList branches)),
          ("else_block", .ofOption (Block.dumpOption otherwise))]) s
  | .loopWhile cond body s =>
      .located (.record "While" [("cond", cond.dump), ("body", Block.dump body)]) s
  | .loopFor pattern source body s =>
      .located (.record "For"
        [("pattern", pattern.dump), ("iterable", source.dump), ("body", Block.dump body)]) s
  | .loopUntil body cond fixup s =>
      .located (.record "Repeat"
        [("body", Block.dump body), ("until", cond.dump),
          ("fixup", .ofOption (Block.dumpOption fixup))]) s
  | .block body s => .located (.apply "Block" [Block.dump body]) s
termination_by structural t => t

/-- A block as a value to inspect. -/
def Block.dump : Block → Dump
  | ⟨stmts, s⟩ => .record "Block" [("stmts", .list (Stmt.dumpList stmts)), ("span", s.dump)]
termination_by structural b => b

/-- An optional block. -/
def Block.dumpOption : Option Block → Option Dump
  | none => none
  | some b => some (Block.dump b)
termination_by structural b => b

/-- Several statements. -/
def Stmt.dumpList : List Stmt → List Dump
  | [] => []
  | t :: ts => Stmt.dump t :: Stmt.dumpList ts
termination_by structural ts => ts

/-- Several branches. -/
def Branch.dumpList : List Branch → List Dump
  | [] => []
  | ⟨cond, body⟩ :: bs =>
      .record "CondBranch" [("cond", cond.dump), ("block", Block.dump body)] :: Branch.dumpList bs
termination_by structural bs => bs

end

/-- A callable as a value to inspect. -/
def Callable.dump (c : Callable) : Dump :=
  .record "Callable"
    [("name", .ofName c.name), ("params", c.params.dump), ("body", c.body.dump),
      ("span", c.span.dump)]

/-- A program as a value to inspect. -/
def Program.dump (p : Program) : Dump :=
  .record "Module" [("callables", .list (p.callables.map Callable.dump))]

end Freshen
