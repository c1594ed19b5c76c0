import Freshen.Grammar.Stmts
import Freshen.Tree.Program

/-!
# Grammar of callables and programs

    callable := "fn" name "(" parameters ")" block
    program  := { callable }

A single parameter stands for itself; any other number of them is a tuple.

- `Program.parse`, `Callable.parse`, `Expr.parse`: trees from source text.
- `Program.ofTokens`, `Callable.ofTokens`, `Expr.ofTokens`: the same from tokens.
-/

namespace Freshen

namespace Grammar

open Freshen.Parser

/-- A callable. -/
def callable (fuel : Nat) : Parser Callable := do
  let start ← expect (.keyword .fn)
  let (name, _) ← identifier
  let opening ← expect (.mark .lparen)
  let (items, _) ← sepList (.mark .rparen) (parameter fuel) fuel
  let closing ← expect (.mark .rparen)
  let body ← block fuel
  return ⟨name, groupParams items (opening.merge closing), body, start.merge body.span⟩

/-- Callables up to the end of the text. -/
def callables (callable : Parser Callable) : Nat → Parser (List Callable)
  | 0 => outOfFuel
  | fuel + 1 => do
      if ← at? .eof then
        return []
      else
        return (← callable) :: (← callables callable fuel)

/-- A whole program. -/
def program (fuel : Nat) : Parser Program :=
  return ⟨← callables (callable fuel) fuel⟩

/-- A callable and nothing after it. -/
def onlyCallable (fuel : Nat) : Parser Callable := do
  let c ← callable fuel
  finished
  return c

/-- An expression and nothing after it. -/
def onlyExpr (fuel : Nat) : Parser Expr := do
  let e ← expr fuel
  finished
  return e

end Grammar

/-- The program that a token list stands for. -/
def Program.ofTokens : List Token → Except ParseError Program := Parser.onTokens Grammar.program

/-- The callable that a token list stands for. -/
def Callable.ofTokens : List Token → Except ParseError Callable :=
  Parser.onTokens Grammar.onlyCallable

/-- The expression that a token list stands for. -/
def Expr.ofTokens : List Token → Except ParseError Expr := Parser.onTokens Grammar.onlyExpr

/-- The program that a source text holds. -/
def Program.parse (source : String) : Except ParseError Program :=
  Parser.onText Grammar.program source

/-- The callable that a source text holds. -/
def Callable.parse (source : String) : Except ParseError Callable :=
  Parser.onText Grammar.onlyCallable source

/-- The expression that a source text holds. -/
def Expr.parse (source : String) : Except ParseError Expr :=
  Parser.onText Grammar.onlyExpr source

end Freshen
