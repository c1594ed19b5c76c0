import Mathlib
import Freshen.Layout.Printer
import Freshen.Proofs.Tree.Spellable

/-!
# Where pieces stand

A layout is followed piece by piece: how many braces are open, and what is on the line already.  A piece is
refused where it may not stand: a line begins with the blanks of its indentation and a token, which is at the
depth that the blanks say, and it ends behind a token that ends a statement or opens a block.

- `Piece.Column`, `Piece.Position`: where a piece stands.
- `Piece.Position.step`, `Piece.Position.run`: where the next piece stands, unless a piece is refused.
- `Piece.AllInline`: pieces within a line and without braces.

**Key results.** `Stmt.run_pieces`, `Block.run_pieces`: a statement and a block are followed to where they end,
at the depth where they began; `Callable.run_pieces`: so is a callable, even if no line may be empty.
-/

namespace Freshen

namespace Piece

/-- What is on a line already. -/
inductive Column where
  /-- Nothing. -/
  | start
  /-- The blanks of an indentation. -/
  | margin (level : Nat)
  /-- A token, at last. -/
  | behind (kind : TokenKind)
  /-- A token and a blank behind it, at last. -/
  | gap

/-- The number of open braces, and what is on the line already. -/
structure Position where
  depth : Nat
  column : Column

/-- The token may be the last one of a line. -/
def EndsLine (k : TokenKind) : Prop :=
  k = .mark .semicolon ∨ k = .mark .lbrace ∨ k = .mark .rbrace

/-- Whether a token may end a line can be decided. -/
instance (k : TokenKind) : Decidable (EndsLine k) := inferInstanceAs (Decidable (_ ∨ _))

namespace Position

/-- How deep a token stands inside its block: a closing brace stands where the block does. -/
def outdent (k : TokenKind) : Nat := if k = .mark .rbrace then 1 else 0

/-- The token may stand here: the first one of a line stands at the depth of its indentation. -/
def Admits (s : Position) (k : TokenKind) : Prop :=
  match s.column with
  | .start => s.depth = outdent k
  | .margin level => s.depth = level + outdent k
  | .behind _ | .gap => True

/-- Whether a token may stand at a position can be decided. -/
instance (s : Position) (k : TokenKind) : Decidable (s.Admits k) := by
  unfold Admits
  split <;> infer_instance

/-- The number of open braces behind a token. -/
def depthBehind (depth : Nat) (k : TokenKind) : Option Nat :=
  if k = .mark .lbrace then some (depth + 1)
  else if k = .mark .rbrace then if depth = 0 then none else some (depth - 1)
  else some depth

/-- Where the next piece stands.  Whether lines may be empty is a parameter. -/
def step (blank : Bool) (s : Position) : Piece → Option Position
  | token k => if s.Admits k then (depthBehind s.depth k).map fun d => ⟨d, .behind k⟩ else none
  | space =>
      match s.column with
      | .behind _ | .gap => some ⟨s.depth, .gap⟩
      | .start | .margin _ => none
  | newline =>
      match s.column with
      | .behind k => if EndsLine k then some ⟨s.depth, .start⟩ else none
      | .start => if blank then some ⟨s.depth, .start⟩ else none
      | .margin _ | .gap => none
  | indent level =>
      match s.column with
      | .start => some ⟨s.depth, .margin level⟩
      | .margin _ | .behind _ | .gap => none

/-- Where what comes after the pieces stands. -/
def run (blank : Bool) : Position → List Piece → Option Position
  | s, [] => some s
  | s, p :: ps => (step blank s p).bind fun s' => run blank s' ps

end Position

/-! ### Pieces within a line -/

/-- A token or a blank, and no brace. -/
def Inline : Piece → Prop
  | token k => k ≠ .mark .lbrace ∧ k ≠ .mark .rbrace
  | space => True
  | newline | indent _ => False

/-- The pieces stay on their line and are no braces. -/
def AllInline (ps : List Piece) : Prop := ∀ p ∈ ps, p.Inline

/-- Where there are no pieces, none leaves the line. -/
@[simp] theorem allInline_nil : AllInline [] := nofun

/-- A piece in front of others stays on the line together with them. -/
@[simp] theorem allInline_cons {p : Piece} {ps : List Piece} :
    AllInline (p :: ps) ↔ p.Inline ∧ AllInline ps := List.forall_mem_cons

/-- Pieces stay on the line iff those of both parts do. -/
@[simp] theorem allInline_append {ps qs : List Piece} :
    AllInline (ps ++ qs) ↔ AllInline ps ∧ AllInline qs := List.forall_mem_append

/-- A blank stays on the line. -/
@[simp] theorem inline_space : Inline space := trivial

/-- An integer stays on the line. -/
@[simp] theorem inline_int (value : Int64) : Inline (token (.int value)) := ⟨nofun, nofun⟩

/-- A string stays on the line. -/
@[simp] theorem inline_str (value : String) : Inline (token (.str value)) := ⟨nofun, nofun⟩

/-- A name stays on the line. -/
@[simp] theorem inline_ident (n : Name) : Inline (ident n) := ⟨nofun, nofun⟩

/-- A reserved word stays on the line. -/
@[simp] theorem inline_word (w : Keyword) : Inline (word w) := ⟨nofun, nofun⟩

/-- A mark stays on the line iff it is no brace. -/
@[simp] theorem inline_sign {m : Mark} : Inline (sign m) ↔ m ≠ .lbrace ∧ m ≠ .rbrace := by
  simp [Inline]

/-- Items that stay on the line do so with commas between them. -/
theorem allInline_commaSeparated {items : List (List Piece)} (h : ∀ item ∈ items, AllInline item) :
    AllInline (commaSeparated items) := by
  induction items with
  | nil => exact allInline_nil
  | cons item items ih =>
      obtain ⟨hitem, hitems⟩ := List.forall_mem_cons.1 h
      cases items with
      | nil => exact hitem
      | cons next items => simp [commaSeparated, hitem, ih hitems]

/-- What stays on the line does so between parentheses. -/
theorem allInline_parenthesized (needed : Bool) {ps : List Piece} (h : AllInline ps) :
    AllInline (parenthesized needed ps) := by
  cases needed with
  | false => exact h
  | true => simp [parenthesized, h]

end Piece

open Piece

mutual

/-- A type is laid out on one line. -/
theorem TypeExpr.allInline : ∀ t : TypeExpr, AllInline t.pieces
  | .named n args _ => by
      have hargs := allInline_commaSeparated (TypeExpr.allInline_all args)
      unfold pieces
      split <;> simp [hargs]
  | .tuple items _ => by
      simp [pieces, allInline_commaSeparated (TypeExpr.allInline_all items)]
  | .array elem _ => by simp [pieces, TypeExpr.allInline elem]

/-- So is each type of a list. -/
theorem TypeExpr.allInline_all : ∀ ts : List TypeExpr, ∀ ps ∈ piecesList ts, AllInline ps
  | [] => nofun
  | t :: ts => List.forall_mem_cons.2 ⟨TypeExpr.allInline t, TypeExpr.allInline_all ts⟩

end

/-- A binding site is laid out on one line. -/
theorem Binder.allInline (b : Binder) : AllInline b.pieces := by
  obtain ⟨name, _ | type, span⟩ := b
  · simp [pieces]
  · simp [pieces, type.allInline]

mutual

/-- A pattern is laid out on one line. -/
theorem Pattern.allInline : ∀ p : Pattern, AllInline p.pieces
  | .binder b => b.allInline
  | .tuple items _ => by
      have hitems := allInline_commaSeparated (Pattern.allInline_all items)
      unfold pieces
      split <;> simp [hitems]
  | .discard _ | .invalid _ => by simp [pieces]

/-- So is each pattern of a list. -/
theorem Pattern.allInline_all : ∀ ps : List Pattern, ∀ qs ∈ piecesList ps, AllInline qs
  | [] => nofun
  | p :: ps => List.forall_mem_cons.2 ⟨Pattern.allInline p, Pattern.allInline_all ps⟩

end

mutual

/-- Parameters are laid out on one line. -/
theorem Params.allInline : ∀ p : Params, AllInline p.pieces
  | .binder b => b.allInline
  | .tuple items _ => by
      simp [pieces, allInline_commaSeparated (Params.allInline_all items)]
  | .unnamed _ => by simp [pieces]

/-- So is each item of a list of parameters. -/
theorem Params.allInline_all : ∀ ps : List Params, ∀ qs ∈ piecesList ps, AllInline qs
  | [] => nofun
  | p :: ps => List.forall_mem_cons.2 ⟨Params.allInline p, Params.allInline_all ps⟩

end

/-- The list of parameters of a callable is laid out on one line. -/
theorem Params.allInline_list (p : Params) : AllInline p.listPieces := by
  cases p with
  | tuple items => exact allInline_commaSeparated (Params.allInline_all items)
  | binder b => exact b.allInline
  | unnamed span => exact Params.allInline (.unnamed span)

/-- A reference is laid out on one line. -/
theorem Reference.allInline (target : Reference) : AllInline target.pieces := by
  cases target with
  | unqualified n => simp [pieces]
  | qualified qualifiers n =>
      induction qualifiers with
      | nil => simp [pieces]
      | cons q qualifiers ih => simpa [pieces] using ih

/-- The type arguments of a reference are laid out on its line. -/
theorem TypeExpr.allInline_arguments (args : Option (List TypeExpr)) :
    AllInline (argumentPieces args) := by
  cases args with
  | none => exact allInline_nil
  | some ts => simp [argumentPieces, allInline_commaSeparated (TypeExpr.allInline_all ts)]

/-- No binary operator is a brace. -/
theorem BinaryOp.inline_token (op : BinaryOp) : Inline (Piece.token op.token) := by
  cases op <;> exact ⟨nofun, nofun⟩

/-- A prefix operator, with the blank after a word, stays on the line. -/
theorem UnaryOp.allInline (op : UnaryOp) : AllInline op.pieces := by
  cases op <;> simp [pieces]

mutual

/-- An expression is laid out on one line. -/
theorem Expr.allInline : ∀ e : Expr, AllInline e.pieces
  | .int _ _ | .str _ _ | .unit _ => by simp [pieces]
  | .bool value _ => by cases value <;> simp [pieces]
  | .ref target args _ => by
      simp [pieces, target.allInline, TypeExpr.allInline_arguments args]
  | .unary op e _ => by
      simp [pieces, op.allInline, allInline_parenthesized _ (Expr.allInline e)]
  | .binary op l r _ => by
      simp [pieces, op.inline_token, allInline_parenthesized _ (Expr.allInline l),
        allInline_parenthesized _ (Expr.allInline r)]
  | .call f args _ => by
      simp [pieces, allInline_parenthesized _ (Expr.allInline f),
        allInline_commaSeparated (Expr.allInline_all args)]
  | .index b i _ => by
      simp [pieces, allInline_parenthesized _ (Expr.allInline b), Expr.allInline i]
  | .tuple items _ => by
      have hitems := allInline_commaSeparated (Expr.allInline_all items)
      unfold pieces
      split <;> simp [hitems]
  | .array items _ => by simp [pieces, allInline_commaSeparated (Expr.allInline_all items)]

/-- So is each expression of a list. -/
theorem Expr.allInline_all : ∀ es : List Expr, ∀ ps ∈ piecesList es, AllInline ps
  | [] => nofun
  | e :: es => List.forall_mem_cons.2 ⟨Expr.allInline e, Expr.allInline_all es⟩

end

/-- The layout of an operand begins with a token. -/
theorem Piece.exists_token_parenthesized (needed : Bool) {ps : List Piece}
    (h : ∃ k rest, ps = token k :: rest) : ∃ k rest, parenthesized needed ps = token k :: rest := by
  cases needed with
  | false => exact h
  | true => exact ⟨_, _, rfl⟩

/-- The layout of an expression begins with a token. -/
theorem Expr.exists_token : ∀ e : Expr, ∃ k rest, e.pieces = token k :: rest
  | .int _ _ | .bool _ _ | .str _ _ | .unit _ => ⟨_, _, rfl⟩
  | .ref (.unqualified _) _ _ | .ref (.qualified [] _) _ _ => ⟨_, _, rfl⟩
  | .ref (.qualified (_ :: _) _) _ _ => ⟨_, _, rfl⟩
  | .unary .neg _ _ | .unary .not _ _ => ⟨_, _, rfl⟩
  | .binary op l _ _ => by
      obtain ⟨k, rest, h⟩ := exists_token_parenthesized (l.strength < op.precedence) l.exists_token
      exact ⟨k, _, by rw [pieces, h]; rfl⟩
  | .call f _ _ => by
      obtain ⟨k, rest, h⟩ :=
        exists_token_parenthesized (f.strength < Precedence.postfixed) f.exists_token
      exact ⟨k, _, by rw [pieces, h]; rfl⟩
  | .index b _ _ => by
      obtain ⟨k, rest, h⟩ :=
        exists_token_parenthesized (b.strength < Precedence.postfixed) b.exists_token
      exact ⟨k, _, by rw [pieces, h]; rfl⟩
  | .tuple _ _ | .array _ _ => ⟨_, _, rfl⟩

/-! ### Following pieces -/

namespace Piece

/-- There is a token on the line. -/
def Column.Within : Column → Prop
  | .behind _ | .gap => True
  | .start | .margin _ => False

/-- Behind a token there is a token on the line. -/
theorem Column.Within.behind (k : TokenKind) : (Column.behind k).Within := trivial

/-- A statement may begin here. -/
def Column.Ready (depth : Nat) (c : Column) : Prop := c = .margin depth ∨ c.Within

namespace Position

variable {blank : Bool} {d : Nat} {c : Column} {k : TokenKind} {ps : List Piece}

/-- What stands after two rows of pieces stands after the second, which begins where the first ended. -/
theorem run_append (s : Position) (ps qs : List Piece) :
    run blank s (ps ++ qs) = (run blank s ps).bind fun s' => run blank s' qs := by
  induction ps generalizing s with
  | nil => rfl
  | cons p ps ih =>
      rw [List.cons_append, run, run, Option.bind_assoc]
      congr 1
      funext s'
      exact ih s'

/-- Where a statement may begin, any token but a closing brace may stand. -/
theorem admits_of_ready (hc : c.Ready d) (hk : outdent k = 0) : (Position.mk d c).Admits k := by
  rcases hc with rfl | hc
  · show d = d + outdent k
    rw [hk, Nat.add_zero]
  · cases c <;> trivial

/-- A token that is no brace, where it may stand. -/
theorem run_admitted (hadmits : (Position.mk d c).Admits k) (hk : (token k).Inline)
    (rest : List Piece) : run blank ⟨d, c⟩ (token k :: rest) = run blank ⟨d, .behind k⟩ rest := by
  have hdepth : depthBehind d k = some d := by rw [depthBehind, if_neg hk.1, if_neg hk.2]
  rw [run, step, if_pos hadmits, hdepth]
  rfl

/-- A token that is no brace leaves the depth and is the last thing on the line. -/
theorem run_token (hc : c.Ready d) (hk : (token k).Inline) (rest : List Piece) :
    run blank ⟨d, c⟩ (token k :: rest) = run blank ⟨d, .behind k⟩ rest :=
  run_admitted (admits_of_ready hc (if_neg hk.2)) hk rest

/-- A token outside of all braces, at the start of a line. -/
theorem run_start (hk : (token k).Inline) (rest : List Piece) :
    run blank ⟨0, .start⟩ (token k :: rest) = run blank ⟨0, .behind k⟩ rest := by
  have hadmits : (Position.mk 0 .start).Admits k := (if_neg hk.2).symm
  exact run_admitted hadmits hk rest

/-- A blank may stand behind a token. -/
theorem run_space (hc : c.Within) (rest : List Piece) :
    run blank ⟨d, c⟩ (space :: rest) = run blank ⟨d, .gap⟩ rest := by
  cases c with
  | behind | gap => rfl
  | start | margin => exact hc.elim

/-- Pieces within a line. -/
theorem run_inline (hc : c.Within) (h : AllInline ps) :
    ∃ c' : Column, c'.Within ∧ ∀ rest, run blank ⟨d, c⟩ (ps ++ rest) = run blank ⟨d, c'⟩ rest := by
  induction ps generalizing c with
  | nil => exact ⟨c, hc, fun _ => rfl⟩
  | cons p ps ih =>
      obtain ⟨hp, hps⟩ := allInline_cons.1 h
      cases p with
      | token k =>
          obtain ⟨c', hc', hrun⟩ := ih (.behind k) hps
          exact ⟨c', hc', fun rest => (run_token (.inr hc) hp _).trans (hrun rest)⟩
      | space =>
          obtain ⟨c', hc', hrun⟩ := @ih .gap trivial hps
          exact ⟨c', hc', fun rest => (run_space hc _).trans (hrun rest)⟩
      | newline | indent => exact hp.elim

/-- A token and then pieces within the line. -/
theorem run_phrase (hc : c.Ready d) (hk : (token k).Inline) (h : AllInline ps) :
    ∃ c' : Column, c'.Within ∧
      ∀ rest, run blank ⟨d, c⟩ (token k :: (ps ++ rest)) = run blank ⟨d, c'⟩ rest := by
  obtain ⟨c', hc', hrun⟩ := run_inline (.behind k) h
  exact ⟨c', hc', fun rest => (run_token hc hk _).trans (hrun rest)⟩

/-- At the start of a line there may be an indentation. -/
theorem run_indent (level : Nat) (rest : List Piece) :
    run blank ⟨d, .start⟩ (indent level :: rest) = run blank ⟨d, .margin level⟩ rest := rfl

/-- A line end behind a token that may stand there. -/
theorem run_newline (hk : EndsLine k) (rest : List Piece) :
    run blank ⟨d, .behind k⟩ (newline :: rest) = run blank ⟨d, .start⟩ rest := by
  simp [run, step, hk]

/-- A statement on one line. -/
theorem run_line (hk : (token k).Inline) (h : AllInline ps) : ∃ k', EndsLine k' ∧ ∀ rest,
    run blank ⟨d, .margin d⟩ (token k :: ps ++ [sign .semicolon] ++ rest) =
      run blank ⟨d, .behind k'⟩ rest := by
  obtain ⟨c', hc', hrun⟩ := run_phrase (.inl rfl) hk h
  refine ⟨.mark .semicolon, .inl rfl, fun rest => ?_⟩
  rw [← run_token (.inr hc') (k := .mark .semicolon) (by simp) rest, ← hrun]
  simp

/-- A pair of braces with nothing between them. -/
theorem run_empty (hc : c.Ready d) (rest : List Piece) :
    run blank ⟨d, c⟩ (sign .lbrace :: sign .rbrace :: rest) =
      run blank ⟨d, .behind (.mark .rbrace)⟩ rest := by
  have hadmits : (Position.mk d c).Admits (.mark .lbrace) := admits_of_ready hc rfl
  rw [run, step, if_pos hadmits]
  rfl

/-- An opening brace at the end of a line. -/
theorem run_open (hc : c.Ready d) (rest : List Piece) :
    run blank ⟨d, c⟩ (sign .lbrace :: newline :: rest) = run blank ⟨d + 1, .start⟩ rest := by
  have hadmits : (Position.mk d c).Admits (.mark .lbrace) := admits_of_ready hc rfl
  rw [run, step, if_pos hadmits]
  rfl

/-- A closing brace on a line of its own. -/
theorem run_close (rest : List Piece) : run blank ⟨d + 1, .start⟩ (indent d :: sign .rbrace :: rest) =
    run blank ⟨d, .behind (.mark .rbrace)⟩ rest := by
  have hadmits : (Position.mk (d + 1) (.margin d)).Admits (.mark .rbrace) := rfl
  rw [run, step, Option.bind_some, run, step, if_pos hadmits]
  rfl

end Position

end Piece

/-! ### Statements -/

open Position

variable {ok : Name → Prop} {blank : Bool}

mutual

/-- A statement is followed to the token that ends its last line. -/
theorem Stmt.run_pieces (d : Nat) : ∀ t : Stmt, t.Spellable ok → ∃ k, EndsLine k ∧
    ∀ rest, run blank ⟨d, .margin d⟩ (t.pieces d ++ rest) = run blank ⟨d, .behind k⟩ rest
  | .bind p mutable e _, _ => by
      have h : AllInline ([space] ++ (if mutable then [word .mut_, space] else []) ++ p.pieces ++
          [space, sign .eq, space] ++ e.pieces) := by
        cases mutable <;> simp [p.allInline, e.allInline]
      exact run_line (inline_word .let_) h
  | .assign t v _, _ => by
      have h : AllInline ([space] ++ t.pieces ++ [space, sign .eq, space] ++ v.pieces) := by
        simp [t.allInline, v.allInline]
      exact run_line (inline_word .set) h
  | .eval v _, _ => by
      obtain ⟨k, ps, hv⟩ := v.exists_token
      obtain ⟨hk, hps⟩ := allInline_cons.1 (hv ▸ v.allInline)
      rw [Stmt.pieces, hv]
      exact run_line hk hps
  | .ret none _, _ => run_line (inline_word .return_) allInline_nil
  | .ret (some v) _, _ => by
      have h : AllInline ([space] ++ v.pieces) := by simp [v.allInline]
      exact run_line (inline_word .return_) h
  | .choose bs b _, h => by
      obtain ⟨c', -, hend, hoption⟩ := Block.run_option d .else_ b h.2.2 (.behind _)
      obtain ⟨k, rfl, hk⟩ := hend _ rfl (.inr (.inr rfl))
      refine ⟨k, hk, fun rest => ?_⟩
      rw [Stmt.pieces, List.append_assoc, Branch.run_firstPieces d bs h.1 h.2.1]
      exact hoption rest
  | .loopWhile c b _, h => by
      have hinline : AllInline ([space] ++ c.pieces ++ [space]) := by simp [c.allInline]
      obtain ⟨c', hc', hrun⟩ := run_phrase (.inl rfl) (inline_word .while_) hinline
      refine ⟨.mark .rbrace, .inr (.inr rfl), fun rest => ?_⟩
      have hblock := Block.run_pieces d b h.2 (.inr hc') rest
      rw [← hblock, ← hrun]
      simp [Stmt.pieces]
  | .loopFor p e b _, h => by
      have hinline : AllInline ([space] ++ p.pieces ++ [space, word .in_, space] ++ e.pieces ++
          [space]) := by
        simp [p.allInline, e.allInline]
      obtain ⟨c', hc', hrun⟩ := run_phrase (.inl rfl) (inline_word .for_) hinline
      refine ⟨.mark .rbrace, .inr (.inr rfl), fun rest => ?_⟩
      have hblock := Block.run_pieces d b h.2.2 (.inr hc') rest
      rw [← hblock, ← hrun]
      simp [Stmt.pieces]
  | .loopUntil b c x _, h => by
      have hinline : AllInline ([space, word .until_, space] ++ c.pieces) := by simp [c.allInline]
      obtain ⟨c', hc', hrun⟩ := run_inline (.behind _) hinline
      obtain ⟨c'', hc'', -, hoption⟩ := Block.run_option d .fixup x h.2.2 hc'
      refine ⟨.mark .semicolon, .inl rfl, fun rest => ?_⟩
      -- from the end of the statement back to its beginning, part by part
      have hgap : Column.Within .gap := trivial
      rw [← run_token (.inr hc'') (k := .mark .semicolon) (by simp), ← hoption, ← hrun,
        ← Block.run_pieces d b h.1 (.inr hgap), ← run_space (.behind (.keyword .repeat_)),
        ← run_token (.inl rfl) (inline_word .repeat_)]
      simp [Stmt.pieces]
  | .block b _, h => ⟨.mark .rbrace, .inr (.inr rfl), Block.run_pieces d b h (.inl rfl)⟩

/-- A block is followed to its closing brace. -/
theorem Block.run_pieces (d : Nat) : ∀ b : Block, b.Spellable ok → ∀ {c : Column}, c.Ready d →
    ∀ rest, run blank ⟨d, c⟩ (b.pieces d ++ rest) = run blank ⟨d, .behind (.mark .rbrace)⟩ rest
  | ⟨[], _⟩, _, c, hc, rest => run_empty hc rest
  | ⟨t :: ts, _⟩, h, c, hc, rest => by
      show run blank ⟨d, c⟩ (sign .lbrace :: newline ::
        (Stmt.linePieces (d + 1) (t :: ts) ++ [indent d, sign .rbrace] ++ rest)) = _
      rw [run_open hc, List.append_assoc, Stmt.run_linePieces (d + 1) (t :: ts) h]
      exact run_close rest

/-- Behind an optional block, the line ends with a brace or as it did before. -/
theorem Block.run_option (d : Nat) (w : Keyword) : ∀ b : Option Block, Block.SpellableOption ok b →
    ∀ {c : Column}, c.Within → ∃ c' : Column, c'.Within ∧ (∀ k, c = .behind k → EndsLine k → 
        ∃ k', c' = .behind k' ∧ EndsLine k') ∧
      ∀ rest, run blank ⟨d, c⟩ (Block.optionPieces d w b ++ rest) = run blank ⟨d, c'⟩ rest
  | none, _, c, hc => ⟨c, hc, fun k hk hend => ⟨k, hk, hend⟩, fun _ => rfl⟩
  | some b, h, c, hc => by
      refine ⟨.behind (.mark .rbrace), trivial, fun _ _ _ => ⟨_, rfl, .inr (.inr rfl)⟩, fun rest => ?_⟩
      obtain ⟨c', hc', hrun⟩ := run_inline hc (show AllInline [space, word w, space] by simp)
      rw [← Block.run_pieces d b h (.inr hc') rest, ← hrun]
      simp [Block.optionPieces]

/-- Statements, each on lines of its own, are followed to the line behind them. -/
theorem Stmt.run_linePieces (d : Nat) : ∀ ts : List Stmt, Stmt.SpellableList ok ts → ∀ rest,
    run blank ⟨d, .start⟩ (Stmt.linePieces d ts ++ rest) = run blank ⟨d, .start⟩ rest
  | [], _, _ => rfl
  | t :: ts, h, rest => by
      obtain ⟨k, hk, hrun⟩ := Stmt.run_pieces d t h.1
      simp only [Stmt.linePieces, List.append_assoc, List.cons_append, List.nil_append]
      rw [run_indent, hrun, run_newline hk, Stmt.run_linePieces d ts h.2]

/-- The branches of a choice are followed to the closing brace of the last one. -/
theorem Branch.run_firstPieces (d : Nat) : ∀ bs : List Branch, bs ≠ [] → Branch.SpellableList ok bs →
    ∀ rest, run blank ⟨d, .margin d⟩ (Branch.firstPieces d bs ++ rest) =
      run blank ⟨d, .behind (.mark .rbrace)⟩ rest
  | [], hne, _, _ => absurd rfl hne
  | ⟨c, b⟩ :: bs, _, h, rest => by
      have hinline : AllInline ([space] ++ c.pieces ++ [space]) := by simp [c.allInline]
      obtain ⟨c', hc', hrun⟩ := run_phrase (.inl rfl) (inline_word .if_) hinline
      rw [← Branch.run_laterPieces d bs h.2.2 rest, ← Block.run_pieces d b h.2.1 (.inr hc'), ← hrun]
      simp [Branch.firstPieces]

/-- The branches after the first begin behind the brace that closed one, and end behind another. -/
theorem Branch.run_laterPieces (d : Nat) : ∀ bs : List Branch, Branch.SpellableList ok bs → ∀ rest,
    run blank ⟨d, .behind (.mark .rbrace)⟩ (Branch.laterPieces d bs ++ rest) =
      run blank ⟨d, .behind (.mark .rbrace)⟩ rest
  | [], _, _ => rfl
  | ⟨c, b⟩ :: bs, h, rest => by
      have hinline : AllInline ([space, word .elif, space] ++ c.pieces ++ [space]) := by
        simp [c.allInline]
      obtain ⟨c', hc', hrun⟩ := run_inline (.behind _) hinline
      have hlater := Branch.run_laterPieces d bs h.2.2 rest
      rw [← Block.run_pieces d b h.2.1 (.inr hc'), ← hrun] at hlater
      simpa [Branch.laterPieces] using hlater

end

/-! ### Callables and programs -/

/-- A callable is followed to its closing brace, whether or not lines may be empty. -/
theorem Callable.run_pieces (c : Callable) (h : c.Spellable ok) (rest : List Piece) :
    run blank ⟨0, .start⟩ (c.pieces ++ rest) = run blank ⟨0, .behind (.mark .rbrace)⟩ rest := by
  have hinline : AllInline ([space, ident c.name, sign .lparen] ++ c.params.listPieces ++
      [sign .rparen, space]) := by
    simp [c.params.allInline_list]
  obtain ⟨c', hc', hrun⟩ := run_inline (.behind (.keyword .fn)) hinline
  rw [← Block.run_pieces 0 c.body h.2.2 (.inr hc') rest, ← hrun, ← run_start (inline_word .fn)]
  simp [Callable.pieces]

/-- A program is followed to its end if lines may be empty. -/
theorem Callable.run_paragraphPieces : ∀ cs : List Callable, (∀ c ∈ cs, c.Spellable ok) →
    run true ⟨0, .start⟩ (paragraphPieces cs) = some ⟨0, .start⟩
  | [], _ => rfl
  | [c], h => (c.run_pieces (h c List.mem_cons_self) _).trans rfl
  | c :: c' :: cs, h => by
      obtain ⟨hc, hcs⟩ := List.forall_mem_cons.1 h
      rw [paragraphPieces, List.append_assoc, c.run_pieces hc]
      · exact Callable.run_paragraphPieces (c' :: cs) hcs
      · nofun

end Freshen
