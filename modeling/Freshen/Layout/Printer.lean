import Freshen.Layout.Piece
import Freshen.Tree.Program

/-!
# Printing trees

One statement per line, four blanks per level, and only the parentheses that precedence requires.

- `Expr.strength`: how tightly an expression binds as it is printed.
- `Expr.pieces`, `Stmt.pieces`, `Block.pieces`, `Callable.pieces`, `Program.pieces`: the layout.
- `Expr.format`, `Block.format`, `Callable.format`, `Program.format`: the text.
-/

namespace Freshen

open Piece

mutual

/-- The layout of a type annotation. -/
def TypeExpr.pieces : TypeExpr → List Piece
  | .named n args _ =>
      if args.isEmpty then [ident n]
      else [ident n, sign .lt] ++ commaSeparated (TypeExpr.piecesList args) ++ [sign .gt]
  | .tuple items _ =>
      [sign .lparen] ++ commaSeparated (TypeExpr.piecesList items) ++ [sign .rparen]
  | .array elem _ => [sign .lbracket] ++ TypeExpr.pieces elem ++ [sign .rbracket]
termination_by structural t => t

/-- The layouts of several type annotations. -/
def TypeExpr.piecesList : List TypeExpr → List (List Piece)
  | [] => []
  | t :: ts => TypeExpr.pieces t :: TypeExpr.piecesList ts
termination_by structural ts => ts

end

/-- The layout of a bound name with its annotation. -/
def Binder.pieces (b : Binder) : List Piece :=
  match b.type with
  | some type => [ident b.name, sign .colon, space] ++ type.pieces
  | none => [ident b.name]

mutual

/-- The layout of a pattern.  What binds nothing is written as a discard. -/
def Pattern.pieces : Pattern → List Piece
  | .binder b => b.pieces
  | .tuple items _ =>
      [sign .lparen] ++ commaSeparated (Pattern.piecesList items) ++
        (if items.length = 1 then [sign .comma] else []) ++ [sign .rparen]
  | .discard _ => [sign .underscore]
  | .invalid _ => [sign .underscore]
termination_by structural p => p

/-- The layouts of several patterns. -/
def Pattern.piecesList : List Pattern → List (List Piece)
  | [] => []
  | p :: ps => Pattern.pieces p :: Pattern.piecesList ps
termination_by structural ps => ps

end

mutual

/-- The layout of a parameter. -/
def Params.pieces : Params → List Piece
  | .binder b => b.pieces
  | .tuple items _ =>
      [sign .lparen] ++ commaSeparated (Params.piecesList items) ++ [sign .rparen]
  | .unnamed _ => [sign .underscore]
termination_by structural p => p

/-- The layouts of several parameters. -/
def Params.piecesList : List Params → List (List Piece)
  | [] => []
  | p :: ps => Params.pieces p :: Params.piecesList ps
termination_by structural ps => ps

end

/-- The layout of a parameter list between its parentheses. -/
def Params.listPieces : Params → List Piece
  | .tuple items _ => commaSeparated (Params.piecesList items)
  | single => single.pieces

/-- The layout of a reference. -/
def Reference.pieces : Reference → List Piece
  | .unqualified n => [ident n]
  | .qualified qualifiers n =>
      qualifiers.flatMap (fun q => [ident q, sign .doubleColon]) ++ [ident n]

/-- The layout of type arguments after a reference. -/
def TypeExpr.argumentPieces : Option (List TypeExpr) → List Piece
  | none => []
  | some args =>
      [sign .doubleColon, sign .lt] ++ commaSeparated (TypeExpr.piecesList args) ++ [sign .gt]

/-- The token of a binary operator. -/
def BinaryOp.token : BinaryOp → TokenKind
  | or => .keyword .or
  | and => .keyword .and
  | eq => .mark .eqEq
  | ne => .mark .notEq
  | lt => .mark .lt
  | le => .mark .ltEq
  | gt => .mark .gt
  | ge => .mark .gtEq
  | add => .mark .plus
  | sub => .mark .minus
  | mul => .mark .star
  | div => .mark .slash
  | mod => .mark .percent

/-- The layout of a unary operator before its operand. -/
def UnaryOp.pieces : UnaryOp → List Piece
  | neg => [sign .minus]
  | not => [word .not, space]

/-- How tightly an expression binds as it is printed.  A negative integer is written with a sign, so
it binds like a negation. -/
def Expr.strength : Expr → Nat
  | .binary op _ _ _ => op.precedence
  | .unary _ _ _ => Precedence.unary
  | .int value _ => if value < 0 then Precedence.unary else Precedence.atom
  | .call _ _ _ => Precedence.postfixed
  | .index _ _ _ => Precedence.postfixed
  | _ => Precedence.atom

mutual

/-- The layout of an expression that needs no parentheses. -/
def Expr.pieces : Expr → List Piece
  | .int value _ => [token (.int value)]
  | .bool value _ => [word (if value then .true_ else .false_)]
  | .str value _ => [token (.str value)]
  | .unit _ => [sign .lparen, sign .rparen]
  | .ref target args _ => target.pieces ++ TypeExpr.argumentPieces args
  | .unary op operand _ =>
      op.pieces ++ parenthesized (operand.strength < Precedence.unary) (Expr.pieces operand)
  | .binary op lhs rhs _ =>
      parenthesized (lhs.strength < op.precedence) (Expr.pieces lhs) ++
        [space, token op.token, space] ++
        parenthesized (rhs.strength < op.precedence + 1) (Expr.pieces rhs)
  | .call callee args _ =>
      parenthesized (callee.strength < Precedence.postfixed) (Expr.pieces callee) ++
        [sign .lparen] ++ commaSeparated (Expr.piecesList args) ++ [sign .rparen]
  | .index base position _ =>
      parenthesized (base.strength < Precedence.postfixed) (Expr.pieces base) ++
        [sign .lbracket] ++ Expr.pieces position ++ [sign .rbracket]
  | .tuple items _ =>
      [sign .lparen] ++ commaSeparated (Expr.piecesList items) ++
        (if items.length = 1 then [sign .comma] else []) ++ [sign .rparen]
  | .array items _ =>
      [sign .lbracket] ++ commaSeparated (Expr.piecesList items) ++ [sign .rbracket]
termination_by structural e => e

/-- The layouts of several expressions. -/
def Expr.piecesList : List Expr → List (List Piece)
  | [] => []
  | e :: es => Expr.pieces e :: Expr.piecesList es
termination_by structural es => es

end

mutual

/-- The layout of a statement at an indentation level. -/
def Stmt.pieces (level : Nat) : Stmt → List Piece
  | .bind pattern mutable init _ =>
      [word .let_, space] ++ (if mutable then [word .mut_, space] else []) ++ pattern.pieces ++
        [space, sign .eq, space] ++ init.pieces ++ [sign .semicolon]
  | .assign target value _ =>
      [word .set, space] ++ target.pieces ++ [space, sign .eq, space] ++ value.pieces ++
        [sign .semicolon]
  | .eval value _ => value.pieces ++ [sign .semicolon]
  | .ret none _ => [word .return_, sign .semicolon]
  | .ret (some value) _ => [word .return_, space] ++ value.pieces ++ [sign .semicolon]
  | .choose branches otherwise _ =>
      Branch.firstPieces level branches ++ Block.optionPieces level .else_ otherwise
  | .loopWhile cond body _ =>
      [word .while_, space] ++ cond.pieces ++ [space] ++ Block.pieces level body
  | .loopFor pattern source body _ =>
      [word .for_, space] ++ pattern.pieces ++ [space, word .in_, space] ++ source.pieces ++
        [space] ++ Block.pieces level body
  | .loopUntil body cond fixup _ =>
      [word .repeat_, space] ++ Block.pieces level body ++ [space, word .until_, space] ++
        cond.pieces ++ Block.optionPieces level .fixup fixup ++ [sign .semicolon]
  | .block body _ => Block.pieces level body
termination_by structural t => t

/-- The layout of a block whose closing brace stands at an indentation level. -/
def Block.pieces (level : Nat) : Block → List Piece
  | ⟨stmts, _⟩ =>
      if stmts.isEmpty then [sign .lbrace, sign .rbrace]
      else [sign .lbrace, newline] ++ Stmt.linePieces (level + 1) stmts ++
        [indent level, sign .rbrace]
termination_by structural b => b

/-- The layout of an optional block after a word. -/
def Block.optionPieces (level : Nat) (w : Keyword) : Option Block → List Piece
  | none => []
  | some b => [space, word w, space] ++ Block.pieces level b
termination_by structural b => b

/-- The layout of statements, each on lines of its own. -/
def Stmt.linePieces (level : Nat) : List Stmt → List Piece
  | [] => []
  | t :: ts => [indent level] ++ Stmt.pieces level t ++ [newline] ++ Stmt.linePieces level ts
termination_by structural ts => ts

/-- The layout of the branches of a choice. -/
def Branch.firstPieces (level : Nat) : List Branch → List Piece
  | [] => []
  | ⟨cond, body⟩ :: bs =>
      [word .if_, space] ++ cond.pieces ++ [space] ++ Block.pieces level body ++
        Branch.laterPieces level bs
termination_by structural bs => bs

/-- The layout of the branches after the first. -/
def Branch.laterPieces (level : Nat) : List Branch → List Piece
  | [] => []
  | ⟨cond, body⟩ :: bs =>
      [space, word .elif, space] ++ cond.pieces ++ [space] ++ Block.pieces level body ++
        Branch.laterPieces level bs
termination_by structural bs => bs

end

/-- The layout of a callable, without a line end. -/
def Callable.pieces (c : Callable) : List Piece :=
  [word .fn, space, ident c.name, sign .lparen] ++ c.params.listPieces ++
    [sign .rparen, space] ++ c.body.pieces 0

/-- The layout of several callables with a blank line between them. -/
def Callable.paragraphPieces : List Callable → List Piece
  | [] => []
  | [c] => c.pieces ++ [newline]
  | c :: cs => c.pieces ++ [newline, newline] ++ Callable.paragraphPieces cs

/-- The layout of a program. -/
def Program.pieces (p : Program) : List Piece := Callable.paragraphPieces p.callables

/-- The text of an expression. -/
def Expr.format (e : Expr) : String := render e.pieces

/-- The text of a block, without a line end. -/
def Block.format (b : Block) : String := render (b.pieces 0)

/-- The text of a callable, with a line end. -/
def Callable.format (c : Callable) : String := render (c.pieces ++ [newline])

/-- The text of a program; each line is ended. -/
def Program.format (p : Program) : String := render p.pieces

end Freshen
