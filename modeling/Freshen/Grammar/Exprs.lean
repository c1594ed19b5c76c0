import Freshen.Grammar.Types
import Freshen.Tree.Expr

/-!
# Grammar of expressions

    expr    := binary operators over unary ones, all left-associative, by precedence
    unary   := "-" unary | "not" unary | postfix
    postfix := primary { "(" exprs ")" | "[" expr "]" }
    primary := int | string | "true" | "false" | path | "(" exprs ")" | "[" exprs "]"
    path    := name { "::" name } [ "::" typeArgs ]

Lists may end in a comma and may be empty.  `()` is the unit value, and a single expression in
parentheses is that expression, unless a comma follows it.

`Grammar.expr` is the only rule that nests; the others take it as an argument.
-/

namespace Freshen.Grammar

open Freshen.Parser

/-- The binary operator that a token stands for. -/
def binaryOp? : TokenKind → Option BinaryOp
  | .keyword .or => some .or
  | .keyword .and => some .and
  | .mark .eqEq => some .eq
  | .mark .notEq => some .ne
  | .mark .lt => some .lt
  | .mark .ltEq => some .le
  | .mark .gt => some .gt
  | .mark .gtEq => some .ge
  | .mark .plus => some .add
  | .mark .minus => some .sub
  | .mark .star => some .mul
  | .mark .slash => some .div
  | .mark .percent => some .mod
  | _ => none

/-- The unary operator that a token stands for. -/
def unaryOp? : TokenKind → Option UnaryOp
  | .mark .minus => some .neg
  | .keyword .not => some .not
  | _ => none

/-- The segments of a path after the first, and its type arguments. -/
def segments : Nat → Parser (List Name × Option (List TypeExpr))
  | 0 => outOfFuel
  | fuel + 1 => do
      if ← at? (.mark .doubleColon) then
        match ← peekNext with
        | .ident _ =>
            let _ ← advance
            let (name, _) ← identifier
            let (names, args) ← segments fuel
            return (name :: names, args)
        | .mark .lt =>
            let _ ← advance
            let _ ← advance
            return ([], some (← typeArgs (type fuel) (fuel + 1)))
        | _ =>
            let _ ← advance
            fail .segment
      else
        return ([], none)

/-- The reference that a path stands for: one segment is unqualified. -/
def pathReference (first : Name) : List Name → Reference
  | [] => .unqualified first
  | second :: names =>
      match pathReference second names with
      | .unqualified name => .qualified [first] name
      | .qualified qualifiers name => .qualified (first :: qualifiers) name

/-- A path, whose first segment is next. -/
def path (first : Name) (fuel : Nat) : Parser Expr := do
  let start ← advance
  let (names, args) ← segments fuel
  return .ref (pathReference first names) args (start.merge (← lastSpan))

/-- The expression that a parenthesised list stands for. -/
def groupExprs (items : List Expr) (comma : Bool) (span : Span) : Expr :=
  match items, comma with
  | [], _ => .unit span
  | [item], false => item
  | items, _ => .tuple items span

/-- An expression without operators; `expr` reads what stands in brackets. -/
def primary (expr : Parser Expr) (fuel : Nat) : Parser Expr := do
  match ← peek with
  | .int value => return .int value (← advance)
  | .str value => return .str value (← advance)
  | .keyword .true_ => return .bool true (← advance)
  | .keyword .false_ => return .bool false (← advance)
  | .mark .lparen =>
      let opening ← advance
      let (items, comma) ← sepList (.mark .rparen) expr fuel
      let closing ← expect (.mark .rparen)
      return groupExprs items comma (opening.merge closing)
  | .mark .lbracket =>
      let opening ← advance
      let (items, _) ← sepList (.mark .rbracket) expr fuel
      let closing ← expect (.mark .rbracket)
      return .array items (opening.merge closing)
  | .ident name => path name fuel
  | _ => fail .expression

/-- Calls and indexing after `base`. -/
def applications (expr : Parser Expr) : Nat → Expr → Parser Expr
  | 0, _ => outOfFuel
  | fuel + 1, base => do
      if ← eat (.mark .lparen) then
        let (args, _) ← sepList (.mark .rparen) expr (fuel + 1)
        let closing ← expect (.mark .rparen)
        applications expr fuel (.call base args (base.span.merge closing))
      else if ← eat (.mark .lbracket) then
        let index ← expr
        let closing ← expect (.mark .rbracket)
        applications expr fuel (.index base index (base.span.merge closing))
      else
        return base

/-- A primary expression with its calls and indexing. -/
def postfixed (expr : Parser Expr) (fuel : Nat) : Parser Expr := do
  let base ← primary expr fuel
  applications expr fuel base

/-- Unary operators and their operand. -/
def unary (expr : Parser Expr) : Nat → Parser Expr
  | 0 => outOfFuel
  | fuel + 1 => do
      match unaryOp? (← peek) with
      | some op =>
          let start ← advance
          let operand ← unary expr fuel
          return .unary op operand (start.merge operand.span)
      | none => postfixed expr (fuel + 1)

/-- Operators of at least the precedence `least` after `lhs`; `rhs` reads the operand after an
operator, given the least precedence of its operators. -/
def operators (rhs : Nat → Parser Expr) (least : Nat) : Nat → Expr → Parser Expr
  | 0, _ => outOfFuel
  | fuel + 1, lhs => do
      match binaryOp? (← peek) with
      | some op =>
          if op.precedence < least then
            return lhs
          else
            let _ ← advance
            let operand ← rhs (op.precedence + 1)
            operators rhs least fuel (.binary op lhs operand (lhs.span.merge operand.span))
      | none => return lhs

/-- An expression whose binary operators outside brackets have at least the precedence `least`. -/
def exprAt : Nat → Nat → Parser Expr
  | 0, _ => outOfFuel
  | fuel + 1, least => do
      let lhs ← unary (exprAt fuel 1) (fuel + 1)
      operators (exprAt fuel) least (fuel + 1) lhs

/-- An expression. -/
def expr (fuel : Nat) : Parser Expr := exprAt fuel 1

end Freshen.Grammar
