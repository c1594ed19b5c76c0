import Freshen.Grammar.Types
import Freshen.Tree.Binder

/-!
# Grammar of patterns and parameters

    binder    := name [ ":" type ]
    pattern   := binder | "_" | "(" patterns ")"
    parameter := binder | "_" | "(" parameters ")"

Lists may end in a comma and may be empty.  A single pattern in parentheses is that pattern, unless
a comma follows it; a single parameter in parentheses is that parameter, comma or not.
-/

namespace Freshen.Grammar

open Freshen.Parser

/-- A name, which is next, with its optional annotation. -/
def binder (name : Name) (fuel : Nat) : Parser Binder := do
  let nameSpan ← advance
  match ← annotation fuel with
  | some type => return ⟨name, some type, nameSpan.merge type.span⟩
  | none => return ⟨name, none, nameSpan⟩

/-- The pattern that a parenthesised list stands for. -/
def groupPatterns (items : List Pattern) (comma : Bool) (span : Span) : Pattern :=
  match items, comma with
  | [item], false => item
  | items, _ => .tuple items span

/-- A binding pattern. -/
def pattern : Nat → Parser Pattern
  | 0 => outOfFuel
  | fuel + 1 => do
      match ← peek with
      | .mark .underscore => return .discard (← advance)
      | .mark .lparen =>
          let opening ← advance
          let (items, comma) ← sepList (.mark .rparen) (pattern fuel) (fuel + 1)
          let closing ← expect (.mark .rparen)
          return groupPatterns items comma (opening.merge closing)
      | .ident name => return .binder (← binder name (fuel + 1))
      | _ => fail .pattern

/-- The parameter tree that a parenthesised list stands for. -/
def groupParams (items : List Params) (span : Span) : Params :=
  match items with
  | [item] => item
  | items => .tuple items span

/-- One parameter. -/
def parameter : Nat → Parser Params
  | 0 => outOfFuel
  | fuel + 1 => do
      match ← peek with
      | .mark .underscore => return .unnamed (← advance)
      | .mark .lparen =>
          let opening ← advance
          let (items, _) ← sepList (.mark .rparen) (parameter fuel) (fuel + 1)
          let closing ← expect (.mark .rparen)
          return groupParams items (opening.merge closing)
      | .ident name => return .binder (← binder name (fuel + 1))
      | _ => fail .parameter

end Freshen.Grammar
