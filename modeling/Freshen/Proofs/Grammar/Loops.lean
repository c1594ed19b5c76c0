import Mathlib
import Freshen.Grammar.Program

/-!
# The loops of the parser

Lists, blocks, programs, choices, paths, operators, calls and indexing are read in loops. Here each loop is told
by what one iteration does: it goes on with what it has gathered, leaves the loop with an answer, or stops.

- `Parser.Iteration`, `Parser.iterate`: what an iteration comes to, and the loop that repeats one.
- `Parser.listIteration`, `Grammar.segmentsIteration`, ...: one iteration of each loop.

**Key results.** `Parser.sepList_eq_iterate`, `Grammar.segments_eq_iterate`, ...: each recursive rule is the
loop that repeats its iteration.
-/

namespace Freshen

namespace Parser

variable {σ α : Type}

/-- What an iteration of a loop comes to. -/
inductive Iteration (σ α : Type) where
  /-- The loop goes on with `state`. -/
  | again (state : σ)
  /-- The loop is left. -/
  | leave (answer : α)

/-- A loop that repeats `iteration`, which is told the fuel of the iterations that may come after it. -/
def iterate (iteration : Nat → σ → Parser (Iteration σ α)) : Nat → σ → Parser α
  | 0, _ => outOfFuel
  | fuel + 1, state => do
      match ← iteration fuel state with
      | .again state => iterate iteration fuel state
      | .leave answer => return answer

/-- Reads an item and a comma of a list, which is left at `close` and where there is no comma. -/
def listIteration (close : TokenKind) (item : Parser α) :
    List α × Bool → Parser (Iteration (List α × Bool) (List α × Bool))
  | (xs, comma) => do
      if ← at? close then
        return .leave (xs, comma)
      else
        let x ← item
        if ← eat (.mark .comma) then
          return .again (xs ++ [x], true)
        else
          return .leave (xs ++ [x], comma)

/-- A loop over items that has some already puts those that a list reads after them. -/
theorem iterate_listIteration (close : TokenKind) (item : Parser α) (fuel : Nat) (xs : List α)
    (comma : Bool) : iterate (fun _ => listIteration close item) fuel (xs, comma) = do
      let (ys, comma') ← sepList close item fuel
      return (xs ++ ys, comma || comma') := by
  induction fuel generalizing xs comma with
  | zero => rfl
  | succ fuel ih =>
      rw [iterate, sepList, listIteration]
      simp only [bind_assoc]
      congr 1
      funext closes
      cases closes with
      | true => simp
      | false =>
          simp only [Bool.false_eq_true, if_false, bind_assoc]
          congr 1
          funext x
          congr 1
          funext more
          cases more with
          | true => simp [ih]
          | false => simp

/-- A list is a loop over its items. -/
theorem sepList_eq_iterate (close : TokenKind) (item : Parser α) (fuel : Nat) :
    sepList close item fuel = iterate (fun _ => listIteration close item) fuel ([], false) := by
  rw [iterate_listIteration]
  simp

end Parser

namespace Grammar

open Freshen.Parser

/-- Reads one callable of a program, up to the end of the text. -/
def callablesIteration (callable : Parser Callable) (cs : List Callable) :
    Parser (Iteration (List Callable) (List Callable)) := do
  if ← at? .eof then return .leave cs else return .again (cs ++ [← callable])

/-- A loop over callables that has some already puts those that are left after them. -/
theorem iterate_callablesIteration (callable : Parser Callable) (fuel : Nat) (cs : List Callable) :
    iterate (fun _ => callablesIteration callable) fuel cs = do return cs ++ (← callables callable fuel) := by
  induction fuel generalizing cs with
  | zero => rfl
  | succ fuel ih =>
      rw [iterate, callables, callablesIteration]
      simp only [bind_assoc]
      congr 1
      funext ends
      cases ends with
      | true => simp
      | false => simp [ih, -bind_pure_comp]

/-- The rule for callables is a loop over them. -/
theorem callables_eq_iterate (callable : Parser Callable) (fuel : Nat) :
    callables callable fuel = iterate (fun _ => callablesIteration callable) fuel [] := by
  rw [iterate_callablesIteration]
  simp

/-- Reads one statement of a block, up to a closing brace. -/
def stmtsIteration (stmt : Parser Stmt) (ts : List Stmt) : Parser (Iteration (List Stmt) (List Stmt)) := do
  match ← peek with
  | .mark .rbrace => return .leave ts
  | .eof => fail (.token (.mark .rbrace))
  | _ => return .again (ts ++ [← stmt])

/-- A loop over statements that has some already puts those that are left after them. -/
theorem iterate_stmtsIteration (stmt : Parser Stmt) (fuel : Nat) (ts : List Stmt) :
    iterate (fun _ => stmtsIteration stmt) fuel ts = do return ts ++ (← stmts stmt fuel) := by
  induction fuel generalizing ts with
  | zero => rfl
  | succ fuel ih =>
      rw [iterate, stmts, stmtsIteration]
      simp only [bind_assoc]
      congr 1
      funext k
      split
      · simp
      · rfl
      · simp [ih, -bind_pure_comp]

/-- The rule for statements is a loop over them. -/
theorem stmts_eq_iterate (stmt : Parser Stmt) (fuel : Nat) :
    stmts stmt fuel = iterate (fun _ => stmtsIteration stmt) fuel [] := by
  rw [iterate_stmtsIteration]
  simp

/-- Reads one branch of a choice, and the word before the next one. -/
def branchesIteration (block : Parser Block) (fuel : Nat) (bs : List Branch) :
    Parser (Iteration (List Branch) (List Branch)) := do
  let cond ← expr (fuel + 1)
  let body ← block
  if ← eat (.keyword .elif) then
    return .again (bs ++ [⟨cond, body⟩])
  else
    return .leave (bs ++ [⟨cond, body⟩])

/-- A loop over branches that has some already puts those that are left after them. -/
theorem iterate_branchesIteration (block : Parser Block) (fuel : Nat) (bs : List Branch) :
    iterate (branchesIteration block) fuel bs = do return bs ++ (← branches block fuel) := by
  induction fuel generalizing bs with
  | zero => rfl
  | succ fuel ih =>
      rw [iterate, branches, branchesIteration]
      simp only [bind_assoc]
      congr 1
      funext cond
      congr 1
      funext body
      congr 1
      funext more
      cases more with
      | true => simp [ih, -bind_pure_comp]
      | false => simp

/-- The rule for branches is a loop over them. -/
theorem branches_eq_iterate (block : Parser Block) (fuel : Nat) :
    branches block fuel = iterate (branchesIteration block) fuel [] := by
  rw [iterate_branchesIteration]
  simp

/-- Reads one segment of a path, or its type arguments, which are the last of it. -/
def segmentsIteration (fuel : Nat) (names : List Name) :
    Parser (Iteration (List Name) (List Name × Option (List TypeExpr))) := do
  if ← at? (.mark .doubleColon) then
    match ← peekNext with
    | .ident _ =>
        let _ ← advance
        let (name, _) ← identifier
        return .again (names ++ [name])
    | .mark .lt =>
        let _ ← advance
        let _ ← advance
        return .leave (names, some (← typeArgs (type fuel) (fuel + 1)))
    | _ =>
        let _ ← advance
        fail .segment
  else
    return .leave (names, none)

/-- A loop over the segments of a path that has some already puts those that are left after them. -/
theorem iterate_segmentsIteration (fuel : Nat) (names : List Name) :
    iterate segmentsIteration fuel names = do
      let (more, args) ← segments fuel
      return (names ++ more, args) := by
  induction fuel generalizing names with
  | zero => rfl
  | succ fuel ih =>
      rw [iterate, segments, segmentsIteration]
      simp only [bind_assoc]
      congr 1
      funext colons
      cases colons with
      | false => simp
      | true =>
          simp only [if_true, bind_assoc]
          congr 1
          funext k
          cases k with
          | ident name => simp [ih]
          | mark mark => cases mark with
            | lt => simp
            | _ => rfl
          | _ => rfl

/-- The rule for paths is a loop over their segments. -/
theorem segments_eq_iterate (fuel : Nat) : segments fuel = iterate segmentsIteration fuel [] := by
  rw [iterate_segmentsIteration]
  simp

/-- Reads a call or an indexing of `base`. -/
def applicationsIteration (expr : Parser Expr) (fuel : Nat) (base : Expr) : Parser (Iteration Expr Expr) := do
  if ← eat (.mark .lparen) then
    let (args, _) ← sepList (.mark .rparen) expr (fuel + 1)
    let closing ← expect (.mark .rparen)
    return .again (.call base args (base.span.merge closing))
  else if ← eat (.mark .lbracket) then
    let index ← expr
    let closing ← expect (.mark .rbracket)
    return .again (.index base index (base.span.merge closing))
  else
    return .leave base

/-- The rule for calls and indexing is a loop over what is applied. -/
theorem applications_eq_iterate (expr : Parser Expr) (fuel : Nat) (base : Expr) :
    applications expr fuel base = iterate (applicationsIteration expr) fuel base := by
  induction fuel generalizing base with
  | zero => rfl
  | succ fuel ih =>
      rw [iterate, applications, applicationsIteration]
      simp only [bind_assoc]
      congr 1
      funext call
      cases call with
      | true => simp [ih]
      | false =>
          simp only [Bool.false_eq_true, if_false, bind_assoc]
          congr 1
          funext index
          cases index with
          | true => simp [ih]
          | false => simp

/-- Reads a binary operator that binds enough and the operand after it. -/
def operatorsIteration (rhs : Nat → Parser Expr) (least : Nat) (lhs : Expr) :
    Parser (Iteration Expr Expr) := do
  match binaryOp? (← peek) with
  | some op =>
      if op.precedence < least then
        return .leave lhs
      else
        let _ ← advance
        let operand ← rhs (op.precedence + 1)
        return .again (.binary op lhs operand (lhs.span.merge operand.span))
  | none => return .leave lhs

/-- The rule for binary operators is a loop over the operators. -/
theorem operators_eq_iterate (rhs : Nat → Parser Expr) (least fuel : Nat) (lhs : Expr) :
    operators rhs least fuel lhs = iterate (fun _ => operatorsIteration rhs least) fuel lhs := by
  induction fuel generalizing lhs with
  | zero => rfl
  | succ fuel ih =>
      rw [iterate, operators, operatorsIteration]
      simp only [bind_assoc]
      congr 1
      funext k
      cases binaryOp? k with
      | none => simp
      | some op =>
          by_cases hlow : op.precedence < least
          · simp [hlow]
          · simp [hlow, ih]

end Grammar

end Freshen
