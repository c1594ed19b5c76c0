import Freshen.Grammar.Parser

/-!
# Grammar of type annotations

    type     := name [ typeArgs ] | "(" types ")" | "[" type "]"
    typeArgs := "<" types ">"

A list of types may end in a comma and may be empty.  A type in parentheses is a tuple type, however
many items it has.
-/

namespace Freshen.Grammar

open Freshen.Parser

/-- The types between `<`, which was read before, and `>`. -/
def typeArgs (type : Parser TypeExpr) (fuel : Nat) : Parser (List TypeExpr) := do
  let (args, _) ← sepList (.mark .gt) type fuel
  let _ ← expect (.mark .gt)
  return args

/-- A type annotation. -/
def type : Nat → Parser TypeExpr
  | 0 => outOfFuel
  | fuel + 1 => do
      match ← peek with
      | .ident name =>
          let start ← advance
          if ← eat (.mark .lt) then
            let args ← typeArgs (type fuel) (fuel + 1)
            return .named name args (start.merge (← lastSpan))
          else
            return .named name [] start
      | .mark .lparen =>
          let opening ← advance
          let (items, _) ← sepList (.mark .rparen) (type fuel) (fuel + 1)
          let closing ← expect (.mark .rparen)
          return .tuple items (opening.merge closing)
      | .mark .lbracket =>
          let opening ← advance
          let elem ← type fuel
          let closing ← expect (.mark .rbracket)
          return .array elem (opening.merge closing)
      | _ => fail .type

/-- An optional annotation, `: type`. -/
def annotation (fuel : Nat) : Parser (Option TypeExpr) := do
  if ← eat (.mark .colon) then
    return some (← type fuel)
  else
    return none

end Freshen.Grammar
