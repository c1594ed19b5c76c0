import Freshen.Grammar.Binders
import Freshen.Grammar.Exprs
import Freshen.Tree.Stmt

/-!
# Grammar of statements and blocks

    block := "{" { stmt } "}"
    stmt  := "let" [ "mut" ] pattern "=" expr ";"
           | "set" expr "=" expr ";"
           | expr ";"
           | "return" [ expr ] ";"
           | "if" expr block { "elif" expr block } [ "else" block ]
           | "while" expr block
           | "for" pattern "in" expr block
           | "repeat" block "until" expr [ "fixup" block ] ";"
           | block

`Grammar.block` is the only rule that nests; the others take it as an argument.
-/

namespace Freshen.Grammar

open Freshen.Parser

/-- A condition and its block, and the `elif` branches after it. -/
def branches (block : Parser Block) : Nat → Parser (List Branch)
  | 0 => outOfFuel
  | fuel + 1 => do
      let cond ← expr (fuel + 1)
      let body ← block
      if ← eat (.keyword .elif) then
        return ⟨cond, body⟩ :: (← branches block fuel)
      else
        return [⟨cond, body⟩]

/-- A block if the word `word` is next. -/
def blockAfter (word : Keyword) (block : Parser Block) : Parser (Option Block) := do
  if ← eat (.keyword word) then
    return some (← block)
  else
    return none

/-- A statement, given its place once it is read. -/
def stmtBody (block : Parser Block) (fuel : Nat) : Parser (Span → Stmt) := do
  match ← peek with
  | .keyword .let_ =>
      let _ ← advance
      let mutable ← eat (.keyword .mut_)
      let pat ← pattern fuel
      let _ ← expect (.mark .eq)
      let init ← expr fuel
      let _ ← expect (.mark .semicolon)
      return .bind pat mutable init
  | .keyword .set =>
      let _ ← advance
      let target ← expr fuel
      let _ ← expect (.mark .eq)
      let value ← expr fuel
      let _ ← expect (.mark .semicolon)
      return .assign target value
  | .keyword .return_ =>
      let _ ← advance
      if ← eat (.mark .semicolon) then
        return .ret none
      else
        let value ← expr fuel
        let _ ← expect (.mark .semicolon)
        return .ret (some value)
  | .keyword .if_ =>
      let _ ← advance
      let bs ← branches block fuel
      return .choose bs (← blockAfter .else_ block)
  | .keyword .while_ =>
      let _ ← advance
      let cond ← expr fuel
      return .loopWhile cond (← block)
  | .keyword .for_ =>
      let _ ← advance
      let pat ← pattern fuel
      let _ ← expect (.keyword .in_)
      let source ← expr fuel
      return .loopFor pat source (← block)
  | .keyword .repeat_ =>
      let _ ← advance
      let body ← block
      let _ ← expect (.keyword .until_)
      let cond ← expr fuel
      let fixup ← blockAfter .fixup block
      let _ ← expect (.mark .semicolon)
      return .loopUntil body cond fixup
  | .mark .lbrace => return .block (← block)
  | _ =>
      let value ← expr fuel
      let _ ← expect (.mark .semicolon)
      return .eval value

/-- A statement. -/
def stmt (block : Parser Block) (fuel : Nat) : Parser Stmt := do
  let first ← current
  let build ← stmtBody block fuel
  return build (first.span.merge (← lastSpan))

/-- Statements up to a closing brace, which is not read. -/
def stmts (stmt : Parser Stmt) : Nat → Parser (List Stmt)
  | 0 => outOfFuel
  | fuel + 1 => do
      match ← peek with
      | .mark .rbrace => return []
      | .eof => fail (.token (.mark .rbrace))
      | _ => return (← stmt) :: (← stmts stmt fuel)

/-- A block. -/
def block : Nat → Parser Block
  | 0 => outOfFuel
  | fuel + 1 => do
      let opening ← expect (.mark .lbrace)
      let body ← stmts (stmt (block fuel) (fuel + 1)) (fuel + 1)
      let closing ← advance
      return ⟨body, opening.merge closing⟩

end Freshen.Grammar
