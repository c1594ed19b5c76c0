import Mathlib
import Freshen.Grammar.Program
import Freshen.Proofs.Grammar.Bare
import Freshen.Proofs.Grammar.Natural
import Freshen.Proofs.Grammar.Reads

/-!
# Rules under a change of spans

The places of a tree are made of the places of tokens by covering both of two places. So a function
on spans that goes along with covering changes the tree that a rule reads as it changes the tokens.

- `Span.Coherent`: functions on spans that go along with covering; `Span.shift`: one of them.

**Key results.** `natural_type`, `natural_expr`, `natural_block`, `natural_callable`: each rule is
natural. `Parser.onTokens_of_onKinds`: up to spans, a rule makes of a token list what it makes of the
token kinds.
-/

namespace Freshen

/-- The function goes along with covering both of two places. -/
def Span.Coherent (f : Span → Span) : Prop := ∀ a b : Span, f (a.merge b) = (f a).merge (f b)

/-- To send all places to one goes along with covering two of them. -/
theorem Span.coherent_nowhere : Coherent fun _ => nowhere := fun _ _ => (merge_self _).symm

/-- The place that is farther back by `n` bytes. -/
def Span.shift (n : Nat) (s : Span) : Span := ⟨s.start + n, s.stop + n⟩

/-- To move all places back goes along with covering two of them. -/
theorem Span.coherent_shift (n : Nat) : Coherent (shift n) := fun a b => by
  simp only [shift, merge, Nat.add_min_add_right, Nat.add_max_add_right]

namespace Grammar

open Freshen.Parser

variable {f : Span → Span} (hf : Span.Coherent f)

include hf

/-! ### Types and binding sites -/

omit hf in
/-- Type arguments do not depend on spans. -/
theorem natural_typeArgs {type : Parser TypeExpr}
    (h : Natural f type (TypeExpr.mapSpans f) type) (fuel : Nat) :
    Natural f (typeArgs type fuel) (TypeExpr.mapSpansList f) (typeArgs type fuel) :=
  (Natural.sepList _ h fuel).bind fun ⟨args, _⟩ => (Natural.expect _).bind fun _ =>
    .pure (TypeExpr.mapSpansList_eq_map f args).symm

/-- Types do not depend on spans. -/
theorem natural_type : ∀ fuel, Natural f (type fuel) (TypeExpr.mapSpans f) (type fuel)
  | 0 => .outOfFuel _
  | fuel + 1 => Natural.peek.bind fun
      | .ident name => Natural.advance.bind fun start => (Natural.eat _).bind fun
          | true => (natural_typeArgs (natural_type fuel) (fuel + 1)).bind fun _ =>
              Natural.lastSpan.bind fun _ => .pure (by simp [TypeExpr.mapSpans, hf _ _])
          | false => .pure rfl
      | .mark mark => by
          cases mark with
          | lparen =>
              refine Natural.advance.bind fun opening =>
                (Natural.sepList _ (natural_type fuel) (fuel + 1)).bind fun _ =>
                (Natural.expect _).bind fun closing => .pure ?_
              simp [TypeExpr.mapSpans, TypeExpr.mapSpansList_eq_map, hf _ _]
          | lbracket =>
              refine Natural.advance.bind fun opening => (natural_type fuel).bind fun elem =>
                (Natural.expect _).bind fun closing => .pure ?_
              simp [TypeExpr.mapSpans, hf _ _]
          | _ => exact .fail _ _
      | .int _ | .str _ | .keyword _ | .eof => .fail _ _

/-- The type of a binding site does not depend on spans. -/
theorem natural_typeOption (fuel : Nat) :
    Natural f ( annotation fuel) (Option.map (TypeExpr.mapSpans f)) ( annotation fuel) :=
  (Natural.eat _).bind fun
    | true => (natural_type hf fuel).bind fun _ => .pure rfl
    | false => .pure rfl

/-- Binding sites do not depend on spans. -/
theorem natural_binder (name : Name) (fuel : Nat) :
    Natural f (binder name fuel) (Binder.mapSpans f) (binder name fuel) :=
  Natural.advance.bind fun span => (natural_typeOption hf fuel).bind fun
    | some type => .pure (by simp [Binder.mapSpans, TypeExpr.span_mapSpans, hf _ _])
    | none => .pure rfl

omit hf in
/-- Patterns are grouped whatever their spans are. -/
theorem groupPatterns_mapSpans (items : List Pattern) (comma : Bool) (span : Span) :
    groupPatterns (items.map (Pattern.mapSpans f)) comma (f span) =
      (groupPatterns items comma span).mapSpans f := by
  rcases items with _ | ⟨p, _ | ⟨q, items⟩⟩ <;> cases comma <;>
    simp [groupPatterns, Pattern.mapSpans, Pattern.mapSpansList_eq_map]

/-- Patterns do not depend on spans. -/
theorem natural_pattern : ∀ fuel, Natural f (pattern fuel) (Pattern.mapSpans f) (pattern fuel)
  | 0 => .outOfFuel _
  | fuel + 1 => Natural.peek.bind fun
      | .ident name => (natural_binder hf name (fuel + 1)).bind fun _ => .pure rfl
      | .mark mark => by
          cases mark with
          | underscore => exact Natural.advance.bind fun _ => .pure rfl
          | lparen =>
              refine Natural.advance.bind fun opening =>
                (Natural.sepList _ (natural_pattern fuel) (fuel + 1)).bind fun ⟨items, comma⟩ =>
                (Natural.expect _).bind fun closing => .pure ?_
              rw [← groupPatterns_mapSpans, hf]
              rfl
          | _ => exact .fail _ _
      | .int _ | .str _ | .keyword _ | .eof => .fail _ _

omit hf in
/-- Parameters are grouped whatever their spans are. -/
theorem groupParams_mapSpans (items : List Params) (span : Span) :
    groupParams (items.map (Params.mapSpans f)) (f span) =
      (groupParams items span).mapSpans f := by
  rcases items with _ | ⟨p, _ | ⟨q, items⟩⟩ <;>
    simp [groupParams, Params.mapSpans, Params.mapSpansList_eq_map]

/-- Parameters do not depend on spans. -/
theorem natural_parameter : ∀ fuel, Natural f (parameter fuel) (Params.mapSpans f) (parameter fuel)
  | 0 => .outOfFuel _
  | fuel + 1 => Natural.peek.bind fun
      | .ident name => (natural_binder hf name (fuel + 1)).bind fun _ => .pure rfl
      | .mark mark => by
          cases mark with
          | underscore => exact Natural.advance.bind fun _ => .pure rfl
          | lparen =>
              refine Natural.advance.bind fun opening =>
                (Natural.sepList _ (natural_parameter fuel) (fuel + 1)).bind fun ⟨items, _⟩ =>
                (Natural.expect _).bind fun closing => .pure ?_
              rw [← groupParams_mapSpans, hf]
          | _ => exact .fail _ _
      | .int _ | .str _ | .keyword _ | .eof => .fail _ _

/-! ### Expressions -/

/-- The names and type arguments of a path do not depend on spans. -/
theorem natural_segments : ∀ fuel, Natural f (segments fuel)
    (Prod.map id (Option.map (TypeExpr.mapSpansList f))) (segments fuel)
  | 0 => .outOfFuel _
  | fuel + 1 => (Natural.at? _).bind fun
      | true => Natural.peekNext.bind fun
          | .ident _ => Natural.advance.bind fun _ => Natural.identifier.bind fun _ =>
              (natural_segments fuel).bind fun _ => .pure rfl
          | .mark mark => by
              cases mark with
              | lt =>
                  exact Natural.advance.bind fun _ => Natural.advance.bind fun _ =>
                    (natural_typeArgs (natural_type hf fuel) (fuel + 1)).bind fun _ => .pure rfl
              | _ => exact Natural.advance.bind fun _ => .fail _ _
          | .int _ | .str _ | .keyword _ | .eof => Natural.advance.bind fun _ => .fail _ _
      | false => .pure rfl

/-- References do not depend on spans. -/
theorem natural_path (first : Name) (fuel : Nat) :
    Natural f (path first fuel) (Expr.mapSpans f) (path first fuel) :=
  Natural.advance.bind fun _ => (natural_segments hf fuel).bind fun _ =>
    Natural.lastSpan.bind fun _ => .pure (by simp [Expr.mapSpans, hf _ _])

omit hf in
/-- Expressions are grouped whatever their spans are. -/
theorem groupExprs_mapSpans (items : List Expr) (comma : Bool) (span : Span) :
    groupExprs (items.map (Expr.mapSpans f)) comma (f span) =
      (groupExprs items comma span).mapSpans f := by
  rcases items with _ | ⟨p, _ | ⟨q, items⟩⟩ <;> cases comma <;>
    simp [groupExprs, Expr.mapSpans, Expr.mapSpansList_eq_map]

section

variable {expr : Parser Expr} (h : Natural f expr (Expr.mapSpans f) expr)

include h

/-- Primary expressions do not depend on spans if nested expressions do not. -/
theorem natural_primary (fuel : Nat) :
    Natural f (primary expr fuel) (Expr.mapSpans f) (primary expr fuel) := by
  refine Natural.peek.bind fun k => ?_
  cases k with
  | int | str => exact Natural.advance.bind fun _ => .pure rfl
  | ident name => exact natural_path hf name fuel
  | keyword word =>
      cases word with
      | true_ | false_ => exact Natural.advance.bind fun _ => .pure rfl
      | _ => exact .fail _ _
  | mark mark =>
      cases mark with
      | lparen =>
          refine Natural.advance.bind fun opening => (Natural.sepList _ h fuel).bind fun ⟨items, comma⟩ =>
            (Natural.expect _).bind fun closing => .pure ?_
          rw [← groupExprs_mapSpans, hf]
          rfl
      | lbracket =>
          refine Natural.advance.bind fun opening => (Natural.sepList _ h fuel).bind fun ⟨items, _⟩ =>
            (Natural.expect _).bind fun closing => .pure ?_
          simp [Expr.mapSpans, Expr.mapSpansList_eq_map, hf _ _]
      | _ => exact .fail _ _
  | eof => exact .fail _ _

/-- Calls and indexing do not depend on spans. -/
theorem natural_applications : ∀ fuel base,
    Natural f (applications expr fuel base) (Expr.mapSpans f)
      (applications expr fuel (base.mapSpans f))
  | 0, _ => .outOfFuel _
  | fuel + 1, base => (Natural.eat _).bind fun
      | true => (Natural.sepList _ h _).bind fun ⟨args, _⟩ => (Natural.expect _).bind fun closing => by
          have hcall := natural_applications fuel (.call base args (base.span.merge closing))
          simpa [Expr.mapSpans, Expr.mapSpansList_eq_map, Expr.span_mapSpans, hf _ _] using hcall
      | false => (Natural.eat _).bind fun
          | true => h.bind fun index => (Natural.expect _).bind fun closing => by
              have hindex := natural_applications fuel
                (.index base index (base.span.merge closing))
              simpa [Expr.mapSpans, Expr.span_mapSpans, hf _ _] using hindex
          | false => .pure rfl

/-- Operands with prefix operators do not depend on spans. -/
theorem natural_unary : ∀ fuel, Natural f (unary expr fuel) (Expr.mapSpans f) (unary expr fuel)
  | 0 => .outOfFuel _
  | fuel + 1 => Natural.peek.bind fun k => by
      rw [id]
      cases unaryOp? k with
      | some op =>
          exact Natural.advance.bind fun _ => (natural_unary fuel).bind fun _ =>
            .pure (by simp [Expr.mapSpans, Expr.span_mapSpans, hf _ _])
      | none =>
          exact (natural_primary hf h _).bind fun base => natural_applications hf h _ base

omit h in
/-- What binary operators join does not depend on spans. -/
theorem natural_operators {rhs : Nat → Parser Expr}
    (h : ∀ least, Natural f (rhs least) (Expr.mapSpans f) (rhs least)) (least : Nat) : ∀ fuel lhs,
    Natural f (operators rhs least fuel lhs) (Expr.mapSpans f)
      (operators rhs least fuel (lhs.mapSpans f))
  | 0, _ => .outOfFuel _
  | fuel + 1, lhs => Natural.peek.bind fun k => by
      rw [id]
      cases binaryOp? k with
      | none => exact .pure rfl
      | some op =>
          by_cases hop : op.precedence < least
          · simp only [if_pos hop]
            exact .pure rfl
          · simp only [if_neg hop]
            refine Natural.advance.bind fun _ => (h _).bind fun operand => ?_
            have hmore := natural_operators h least fuel
              (.binary op lhs operand (lhs.span.merge operand.span))
            simpa [Expr.mapSpans, Expr.span_mapSpans, hf _ _] using hmore

end

/-- Expressions of a level do not depend on spans. -/
theorem natural_exprAt : ∀ fuel least,
    Natural f (exprAt fuel least) (Expr.mapSpans f) (exprAt fuel least)
  | 0, _ => .outOfFuel _
  | fuel + 1, least => (natural_unary hf (natural_exprAt fuel 1) _).bind fun lhs =>
      natural_operators hf (natural_exprAt fuel) least _ lhs

/-- Expressions do not depend on spans. -/
theorem natural_expr (fuel : Nat) : Natural f (expr fuel) (Expr.mapSpans f) (expr fuel) :=
  natural_exprAt hf fuel 1

/-! ### Statements and blocks -/

section

variable {block : Parser Block} (h : Natural f block (Block.mapSpans f) block)

include h

/-- Branches do not depend on spans if blocks do not. -/
theorem natural_branches : ∀ fuel,
    Natural f (branches block fuel) (Branch.mapSpansList f) (branches block fuel)
  | 0 => .outOfFuel _
  | fuel + 1 => (natural_expr hf _).bind fun _ => h.bind fun _ => (Natural.eat _).bind fun
      | true => (natural_branches fuel).bind fun _ => .pure rfl
      | false => .pure rfl

omit hf in
/-- A block after a word does not depend on spans if blocks do not. -/
theorem natural_blockAfter (word : Keyword) :
    Natural f (blockAfter word block) (Block.mapSpansOption f) (blockAfter word block) :=
  (Natural.eat _).bind fun
    | true => h.bind fun _ => .pure rfl
    | false => .pure rfl

/-- A statement that still needs its place becomes natural once the place is given. -/
def NaturalBuild (f : Span → Span) (p q : Parser (Span → Stmt)) : Prop :=
  ∀ first : Span, Natural f (p >>= fun build => return build (first.merge (← lastSpan)))
    (Stmt.mapSpans f) (q >>= fun build => return build ((f first).merge (← lastSpan)))

omit h in
/-- A statement is given its place by a function that goes along with the change of spans. -/
theorem NaturalBuild.pure {build build' : Span → Stmt}
    (h : ∀ s, build' (f s) = (build s).mapSpans f) :
    NaturalBuild f (pure build) (Pure.pure build') := fun first => by
  rw [pure_bind, pure_bind]
  exact Natural.lastSpan.bind fun last => .pure (by rw [← h, hf])

omit hf h in
/-- What comes before a statement is built may be read first. -/
theorem NaturalBuild.bind {α β : Type} {p : Parser α} {q : Parser β} {g : α → β}
    {k : α → Parser (Span → Stmt)} {l : β → Parser (Span → Stmt)} (hp : Natural f p g q)
    (hk : ∀ a, NaturalBuild f (k a) (l (g a))) : NaturalBuild f (p >>= k) (q >>= l) := fun first => by
  rw [bind_assoc, bind_assoc]
  exact Natural.bind hp fun a => hk a first

/-- What a statement is built of does not depend on spans, whatever place it will be given. -/
theorem naturalBuild_stmtBody (fuel : Nat) :
    NaturalBuild f (stmtBody block fuel) (stmtBody block fuel) := by
  refine .bind .peek fun k => ?_
  have hexpr := natural_expr hf fuel
  have heval : NaturalBuild f
      (expr fuel >>= fun value => expect (.mark .semicolon) >>= fun _ => return Stmt.eval value)
      (expr fuel >>= fun value => expect (.mark .semicolon) >>= fun _ => return Stmt.eval value) :=
    .bind hexpr fun _ => .bind (.expect _) fun _ => .pure hf fun _ => rfl
  cases k with
  | keyword word =>
      cases word with
      | let_ =>
          exact .bind .advance fun _ => .bind (.eat _) fun _ => .bind (natural_pattern hf fuel)
            fun _ => .bind (.expect _) fun _ => .bind hexpr fun _ => .bind (.expect _) fun _ =>
            .pure hf fun _ => rfl
      | set =>
          exact .bind .advance fun _ => .bind hexpr fun _ => .bind (.expect _) fun _ =>
            .bind hexpr fun _ => .bind (.expect _) fun _ => .pure hf fun _ => rfl
      | return_ =>
          exact .bind .advance fun _ => .bind (.eat _) fun
            | true => .pure hf fun _ => rfl
            | false => .bind hexpr fun _ => .bind (.expect _) fun _ => .pure hf fun _ => rfl
      | if_ =>
          exact .bind .advance fun _ => .bind (natural_branches hf h fuel) fun _ =>
            .bind (natural_blockAfter h _) fun _ => .pure hf fun _ => rfl
      | while_ =>
          exact .bind .advance fun _ => .bind hexpr fun _ => .bind h fun _ => .pure hf fun _ => rfl
      | for_ =>
          exact .bind .advance fun _ => .bind (natural_pattern hf fuel) fun _ =>
            .bind (.expect _) fun _ => .bind hexpr fun _ => .bind h fun _ => .pure hf fun _ => rfl
      | repeat_ =>
          exact .bind .advance fun _ => .bind h fun _ => .bind (.expect _) fun _ =>
            .bind hexpr fun _ => .bind (natural_blockAfter h _) fun _ => .bind (.expect _) fun _ =>
            .pure hf fun _ => rfl
      | _ => exact heval
  | mark mark =>
      cases mark with
      | lbrace => exact .bind h fun _ => .pure hf fun _ => rfl
      | _ => exact heval
  | _ => exact heval

/-- Statements do not depend on spans if blocks do not. -/
theorem natural_stmt (fuel : Nat) :
    Natural f (stmt block fuel) (Stmt.mapSpans f) (stmt block fuel) :=
  Natural.current.bind fun first => naturalBuild_stmtBody hf h fuel first.span

omit hf h in
/-- Rows of statements do not depend on spans if statements do not. -/
theorem natural_stmts {stmt : Parser Stmt} (h : Natural f stmt (Stmt.mapSpans f) stmt) : ∀ fuel,
    Natural f (stmts stmt fuel) (Stmt.mapSpansList f) (stmts stmt fuel)
  | 0 => .outOfFuel _
  | fuel + 1 => Natural.peek.bind fun k => by
      have hmore : Natural f (do return (← stmt) :: (← stmts stmt fuel)) (Stmt.mapSpansList f)
          (do return (← stmt) :: (← stmts stmt fuel)) :=
        h.bind fun _ => (natural_stmts h fuel).bind fun _ => .pure rfl
      cases k with
      | eof => exact .fail _ _
      | mark mark =>
          cases mark with
          | rbrace => exact .pure rfl
          | _ => exact hmore
      | _ => exact hmore

end

/-- Blocks do not depend on spans. -/
theorem natural_block : ∀ fuel, Natural f (block fuel) (Block.mapSpans f) (block fuel)
  | 0 => .outOfFuel _
  | fuel + 1 => (Natural.expect _).bind fun _ =>
      (natural_stmts (natural_stmt hf (natural_block fuel) _) _).bind fun _ =>
      Natural.advance.bind fun _ => .pure (by simp [Block.mapSpans, hf _ _])

/-! ### Callables and programs -/

/-- Callables do not depend on spans. -/
theorem natural_callable (fuel : Nat) :
    Natural f (callable fuel) (Callable.mapSpans f) (callable fuel) := by
  refine (Natural.expect _).bind fun start => Natural.identifier.bind fun ⟨name, _⟩ =>
    (Natural.expect _).bind fun opening =>
    (Natural.sepList _ (natural_parameter hf fuel) fuel).bind fun ⟨items, _⟩ =>
    (Natural.expect _).bind fun closing => (natural_block hf fuel).bind fun body => .pure ?_
  rw [Callable.mapSpans, ← groupParams_mapSpans, hf, hf, Block.span_mapSpans]
  rfl

omit hf in
/-- Rows of callables do not depend on spans if callables do not. -/
theorem natural_callables {callable : Parser Callable}
    (h : Natural f callable (Callable.mapSpans f) callable) : ∀ fuel,
    Natural f (callables callable fuel) (List.map (Callable.mapSpans f)) (callables callable fuel)
  | 0 => .outOfFuel _
  | fuel + 1 => (Natural.at? _).bind fun
      | true => .pure rfl
      | false => h.bind fun _ => (natural_callables h fuel).bind fun _ => .pure rfl

/-- Programs do not depend on spans. -/
theorem natural_program (fuel : Nat) :
    Natural f (program fuel) (Program.mapSpans f) (program fuel) :=
  (natural_callables (natural_callable hf fuel) fuel).bind fun _ => .pure rfl

/-- The only callable of a text does not depend on spans. -/
theorem natural_onlyCallable (fuel : Nat) :
    Natural f (onlyCallable fuel) (Callable.mapSpans f) (onlyCallable fuel) :=
  (natural_callable hf fuel).bind fun _ => Natural.finished.bind fun _ => .pure rfl

/-- The only expression of a text does not depend on spans. -/
theorem natural_onlyExpr (fuel : Nat) :
    Natural f (onlyExpr fuel) (Expr.mapSpans f) (onlyExpr fuel) :=
  (natural_expr hf fuel).bind fun _ => Natural.finished.bind fun _ => .pure rfl

end Grammar

/-! ### Token lists -/

/-- Without its spans, the cursor at the start of tokens stands before their kinds. -/
theorem Cursor.start_mapSpans_nowhere (tokens : List Token) :
    (start tokens).mapSpans (fun _ => .nowhere) = bare (tokens.map Token.kind) := by
  simp [start, mapSpans, bare, Token.mapSpan]

namespace Parser

variable {α : Type} {p : Nat → Parser α} {g : α → α}

/-- What a natural rule makes of a token list is up to spans what it makes of the token kinds. -/
theorem onTokens_of_onKinds (h : ∀ fuel, Natural (fun _ => .nowhere) (p fuel) g (p fuel))
    {tokens : List Token} {a : α} {c : Cursor}
    (hrun : (p (tokens.length + 1)).onKinds (tokens.map Token.kind) = .ok (a, c)) :
    ∃ b, onTokens p tokens = .ok b ∧ g b = a := by
  rw [onKinds, ← Cursor.start_mapSpans_nowhere, h] at hrun
  cases hp : (p (tokens.length + 1)).run (Cursor.start tokens) with
  | error stop => simp [hp] at hrun
  | ok result =>
      simp only [hp, Except.ok.injEq, Prod.mk.injEq] at hrun
      exact ⟨result.1, by simp [onTokens, hp], hrun.1⟩

/-- Whether a natural rule accepts a token list depends on the token kinds alone. -/
theorem onTokens_of_kinds_eq (h : ∀ fuel, Natural (fun _ => .nowhere) (p fuel) g (p fuel))
    {tokens tokens' : List Token} (hkinds : tokens.map Token.kind = tokens'.map Token.kind) {a : α}
    (ha : onTokens p tokens = .ok a) : ∃ b, onTokens p tokens' = .ok b := by
  obtain ⟨c, hrun⟩ := run_of_onTokens ha
  have hlength : tokens.length = tokens'.length := by simpa using congrArg List.length hkinds
  have hbare : (p (tokens'.length + 1)).onKinds (tokens'.map Token.kind) =
      .ok (g a, c.mapSpans fun _ => .nowhere) := by
    rw [← hkinds, ← hlength, onKinds, ← Cursor.start_mapSpans_nowhere, h, hrun]
  obtain ⟨b, hb, -⟩ := onTokens_of_onKinds h hbare
  exact ⟨b, hb⟩

end Parser

end Freshen
