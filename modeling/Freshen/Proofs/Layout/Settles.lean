import Mathlib
import Freshen.Layout.Printer
import Freshen.Proofs.Layout.Groupings
import Freshen.Proofs.Layout.Legible
import Freshen.Proofs.Tree.Spellable

/-!
# Layouts are legible

The layout of a spellable tree whose local names are identifiers is settled: no two tokens of it stand
so close that they would be read as one or as others.

**Key results.** `Expr.settled`, `Callable.settled`, `Program.legible`.
-/

namespace Freshen

open Piece

/-! ### Lists of items -/

namespace Piece

/-- A mark whose first character is soft fuses with no token before it. -/
theorem soft_sign (m : Mark) {c : Char} {cs : List Char} (h : m.text = String.ofList (c :: cs))
    (hc : isSoft c = true) (ps : List Piece) : Soft (sign m :: ps) := .token (k := .mark m) h hc ps

/-- The end of a block, wherever its line starts. -/
theorem soft_blockEnd (level : Nat) : Soft [indent level, sign .rbrace] := by
  intro c hc
  rw [List.flatMap_cons, chars] at hc
  generalize level * indentWidth = blanks at hc
  cases blanks with
  | zero => exact Option.some.inj hc ▸ rfl
  | succ blanks => exact Option.some.inj hc ▸ rfl

namespace Settled

/-- Settled items are settled with commas between them. -/
theorem commaSeparated {items : List (List Piece)} (h : ∀ item ∈ items, Settled item) :
    Settled (commaSeparated items) := by
  induction items with
  | nil => exact nil
  | cons item items ih =>
      obtain ⟨hitem, hitems⟩ := List.forall_mem_cons.1 h
      cases items with
      | nil => exact hitem
      | cons next items =>
          rw [Piece.commaSeparated, List.append_assoc]
          · exact hitem.append ((ih hitems).space.sign rfl) (soft_sign .comma rfl rfl _)
          · nofun

/-- A name before settled pieces that do not go on with a word. -/
theorem name {n : Name} {ps : List Piece} (hn : IsIdentifier n)
    (hps : ∀ c ∈ (ps.flatMap chars).head?, isWordPart c = false) (h : Settled ps) :
    Settled (ident n :: ps) := h.token hn hps

/-- Settled pieces are settled between parentheses. -/
theorem parenthesized {needed : Bool} {ps : List Piece} (h : Settled ps) :
    Settled (parenthesized needed ps) := by
  cases needed with
  | false => exact h
  | true =>
      simp only [Piece.parenthesized, if_true, List.cons_append, List.nil_append]
      exact (h.append (nil.sign rfl) (soft_sign .rparen rfl rfl [])).sign rfl

/-- What stands after the items of a tuple. -/
theorem tupleClose (n : Nat) :
    Settled ((if n = 1 then [Piece.sign .comma] else []) ++ [Piece.sign .rparen]) ∧
      Soft ((if n = 1 then [Piece.sign .comma] else []) ++ [Piece.sign .rparen]) := by
  split
  · exact ⟨(nil.sign rfl).sign rfl, soft_sign .comma rfl rfl _⟩
  · exact ⟨nil.sign rfl, soft_sign .rparen rfl rfl _⟩

end Settled

end Piece

/-! ### Types and binding sites -/

/-- The layout of an annotation does not begin with `=`, so it may stand after `<`. -/
theorem TypeExpr.head?_pieces {t : TypeExpr} (h : t.Spellable) (rest : List Piece) :
    ∀ c ∈ ((t.pieces ++ rest).flatMap chars).head?, c ≠ '=' := by
  intro c hc
  cases t with
  | named n args span =>
      obtain ⟨⟨d, ds, rfl, hd, -⟩, -⟩ := h.1
      have hname : ∃ ps, (named (String.ofList (d :: ds)) args span).pieces ++ rest =
          ident (String.ofList (d :: ds)) :: ps := by
        rw [pieces]
        split <;> exact ⟨_, rfl⟩
      obtain ⟨ps, hps⟩ := hname
      rw [hps, head?_token rfl] at hc
      obtain rfl := Option.some.inj hc
      rintro rfl
      exact absurd hd (by decide)
  | tuple items span =>
      simp only [pieces, List.cons_append, List.nil_append] at hc
      rw [head?_token rfl] at hc
      exact Option.some.inj hc ▸ by decide
  | array elem span =>
      simp only [pieces, List.cons_append, List.nil_append] at hc
      rw [head?_token rfl] at hc
      exact Option.some.inj hc ▸ by decide

/-- Laid-out annotations between `<` and `>`. -/
theorem TypeExpr.settled_arguments {ts : List TypeExpr} (hts : SpellableList ts)
    (h : ∀ ps ∈ piecesList ts, Settled ps) :
    Settled (sign .lt :: (commaSeparated (piecesList ts) ++ [sign .gt])) := by
  have hinside : Settled (commaSeparated (piecesList ts) ++ [sign .gt]) :=
    (Settled.commaSeparated h).append (Settled.nil.token trivial nofun) (soft_sign .gt rfl rfl [])
  refine hinside.token trivial fun c hc => decide_eq_false ?_
  cases ts with
  | nil =>
      rw [show commaSeparated (piecesList []) ++ [sign .gt] = [sign .gt] from rfl,
        head?_token rfl] at hc
      exact Option.some.inj hc ▸ by decide
  | cons t ts =>
      obtain ⟨rest, hrest⟩ : ∃ rest, commaSeparated (piecesList (t :: ts)) ++ [sign .gt] =
          t.pieces ++ rest := by
        cases ts with
        | nil => exact ⟨_, rfl⟩
        | cons u us =>
            simp only [piecesList, commaSeparated, List.append_assoc]
            exact ⟨_, rfl⟩
      rw [hrest] at hc
      exact head?_pieces hts.1 rest c hc

mutual

/-- The layout of a type that can be written down is settled. -/
theorem TypeExpr.settled : ∀ t : TypeExpr, t.Spellable → Settled t.pieces
  | .named n [] _, h => Settled.nil.name h.1 nofun
  | .named n (t :: ts) _, h => by
      have hargs := TypeExpr.settled_arguments h.2 (TypeExpr.settled_all (t :: ts) h.2)
      simp only [pieces, List.isEmpty_cons, Bool.false_eq_true, if_false, List.cons_append,
        List.nil_append]
      exact hargs.before h.1 (soft_sign .lt rfl rfl _)
  | .tuple items _, h => by
      have hitems := Settled.commaSeparated (TypeExpr.settled_all items h)
      simp only [pieces, List.cons_append, List.nil_append]
      exact (hitems.append (Settled.nil.sign rfl) (soft_sign .rparen rfl rfl [])).sign rfl
  | .array elem _, h => by
      simp only [pieces, List.cons_append, List.nil_append]
      exact ((TypeExpr.settled elem h).append (Settled.nil.sign rfl) (soft_sign .rbracket rfl rfl [])).sign rfl

/-- So is that of each type of a list. -/
theorem TypeExpr.settled_all : ∀ ts : List TypeExpr, SpellableList ts →
    ∀ ps ∈ piecesList ts, Settled ps
  | [], _ => nofun
  | t :: ts, h => List.forall_mem_cons.2 ⟨TypeExpr.settled t h.1, TypeExpr.settled_all ts h.2⟩

end

/-- The layout of a binding site that can be written down is settled. -/
theorem Binder.settled (b : Binder) (h : b.Spellable IsIdentifier) : Settled b.pieces := by
  obtain ⟨name, _ | type, span⟩ := b
  · exact Settled.nil.name h.1 nofun
  · have htype : Settled (space :: type.pieces) := (type.settled (h.2 type rfl)).space
    have hcolon : Settled (sign .colon :: space :: type.pieces) :=
      htype.token trivial fun c hc => Option.some.inj hc ▸ rfl
    change Settled (ident name :: sign .colon :: space :: type.pieces)
    refine hcolon.name h.1 fun c hc => ?_
    rw [head?_token (k := .mark .colon) rfl] at hc
    exact Option.some.inj hc ▸ rfl

mutual

/-- The layout of a pattern that can be written down is settled. -/
theorem Pattern.settled : ∀ p : Pattern, p.Spellable IsIdentifier → Settled p.pieces
  | .binder b, h => b.settled h
  | .tuple items _, h => by
      have hitems := Settled.commaSeparated (Pattern.settled_all items h)
      simp only [pieces, List.cons_append, List.nil_append, List.append_assoc]
      exact (hitems.append (Settled.tupleClose _).1 (Settled.tupleClose _).2).sign rfl
  | .discard _, _ => Settled.nil.token trivial nofun

/-- So is that of each pattern of a list. -/
theorem Pattern.settled_all : ∀ ps : List Pattern, SpellableList IsIdentifier ps →
    ∀ pieces ∈ piecesList ps, Settled pieces
  | [], _ => nofun
  | p :: ps, h => List.forall_mem_cons.2 ⟨Pattern.settled p h.1, Pattern.settled_all ps h.2⟩

end

mutual

/-- The layout of parameters that can be written down is settled. -/
theorem Params.settled : ∀ p : Params, p.Spellable IsIdentifier → Settled p.pieces
  | .binder b, h => b.settled h
  | .tuple items _, h => by
      have hitems := Settled.commaSeparated (Params.settled_all items h.2)
      simp only [pieces, List.cons_append, List.nil_append]
      exact (hitems.append (Settled.nil.sign rfl) (soft_sign .rparen rfl rfl [])).sign rfl
  | .unnamed _, _ => Settled.nil.token trivial nofun

/-- So is that of each item of a list of parameters. -/
theorem Params.settled_all : ∀ ps : List Params, SpellableList IsIdentifier ps →
    ∀ pieces ∈ piecesList ps, Settled pieces
  | [], _ => nofun
  | p :: ps, h => List.forall_mem_cons.2 ⟨Params.settled p h.1, Params.settled_all ps h.2⟩

end

/-- The layout of the parameters of a callable, between their parentheses, is settled. -/
theorem Params.settled_list (p : Params) (h : p.Spellable IsIdentifier) : Settled p.listPieces := by
  cases p with
  | tuple items span => exact Settled.commaSeparated (Params.settled_all items h.2)
  | binder b => exact b.settled h
  | unnamed span => exact Params.settled (.unnamed span) h

/-! ### Expressions -/

/-- A mark between the segments of a path, or before its type arguments. -/
theorem Piece.Settled.doubleColon {ps : List Piece} (h : Settled ps) {n : Name}
    (hn : IsIdentifier n) : Settled (ident n :: Piece.sign .doubleColon :: ps) := by
  refine (h.sign (m := .doubleColon) rfl).name hn fun c hc => ?_
  rw [head?_token (k := .mark .doubleColon) rfl] at hc
  exact Option.some.inj hc ▸ rfl

/-- A name with its type arguments, at the end of a path. -/
theorem TypeExpr.settled_segment {n : Name} (hn : IsIdentifier n) : ∀ args : Option (List TypeExpr),
    (∀ ts ∈ args, SpellableList ts) → Settled (ident n :: argumentPieces args)
  | none, _ => Settled.nil.name hn nofun
  | some ts, h => by
      have hts := h ts rfl
      exact (TypeExpr.settled_arguments hts (TypeExpr.settled_all ts hts)).doubleColon hn

/-- The layout of a reference that can be written down is settled, with its type arguments. -/
theorem Reference.settled (target : Reference) (args : Option (List TypeExpr))
    (htarget : target.Spellable IsIdentifier) (hargs : ∀ ts ∈ args, TypeExpr.SpellableList ts) :
    Settled (target.pieces ++ TypeExpr.argumentPieces args) := by
  cases target with
  | unqualified n => exact TypeExpr.settled_segment htarget args hargs
  | qualified qualifiers n =>
      obtain ⟨-, hqualifiers, hn⟩ := htarget
      induction qualifiers with
      | nil => exact TypeExpr.settled_segment hn args hargs
      | cons q qualifiers ih =>
          obtain ⟨hq, hqualifiers⟩ := List.forall_mem_cons.1 hqualifiers
          exact (ih hqualifiers).doubleColon hq

/-- The token of a binary operator can be read. -/
theorem BinaryOp.readable_token (op : BinaryOp) : op.token.Readable := by
  cases op <;> trivial

mutual

/-- The layout of an expression is settled, whichever of its grouping parentheses are kept. -/
theorem Expr.settled_keeping (keep : Place → Bool) : ∀ e : Expr, e.Spellable IsIdentifier →
    Settled (e.piecesKeeping keep)
  | .int _ _, h => Settled.nil.token h nofun
  | .bool _ _, _ => Settled.nil.token trivial nofun
  | .str _ _, _ => Settled.nil.token trivial nofun
  | .unit _, _ => (Settled.nil.sign rfl).sign rfl
  | .ref target args _, h => target.settled args h.1 h.2
  | .unary .neg e _, h => (Expr.settled_keeping _ e h).parenthesized.sign rfl
  | .unary .not e _, h => (Expr.settled_keeping _ e h).parenthesized.word .not
  | .binary op l r _, h => by
      have hr : Settled (grouped keep (op.precedence + 1) 1 r
          (r.piecesKeeping fun p => keep (1 :: p))) := (Expr.settled_keeping _ r h.2).parenthesized
      have hop := (hr.space.before op.readable_token (.space _)).space
      simp only [piecesKeeping, List.append_assoc, List.cons_append, List.nil_append]
      exact (Expr.settled_keeping _ l h.1).parenthesized.append hop (.space _)
  | .call f args _, h => by
      have hargs := (Settled.commaSeparated (Expr.settled_keeping_all keep 1 args h.2)).append
        (Settled.nil.sign (m := .rparen) rfl) (soft_sign .rparen rfl rfl [])
      simp only [piecesKeeping, List.append_assoc, List.cons_append, List.nil_append]
      exact (Expr.settled_keeping _ f h.1).parenthesized.append (hargs.sign rfl) (soft_sign .lparen rfl rfl _)
  | .index b i _, h => by
      have hi := (Expr.settled_keeping (fun p => keep (1 :: p)) i h.2).append
        (Settled.nil.sign (m := .rbracket) rfl) (soft_sign .rbracket rfl rfl [])
      simp only [piecesKeeping, List.append_assoc, List.cons_append, List.nil_append]
      exact (Expr.settled_keeping _ b h.1).parenthesized.append (hi.sign rfl) (soft_sign .lbracket rfl rfl _)
  | .tuple items _, h => by
      have hitems := Settled.commaSeparated (Expr.settled_keeping_all keep 0 items h.2)
      simp only [piecesKeeping, List.cons_append, List.nil_append, List.append_assoc]
      exact (hitems.append (Settled.tupleClose _).1 (Settled.tupleClose _).2).sign rfl
  | .array items _, h => by
      have hitems := Settled.commaSeparated (Expr.settled_keeping_all keep 0 items h)
      simp only [piecesKeeping, List.cons_append, List.nil_append]
      exact (hitems.append (Settled.nil.sign rfl) (soft_sign .rbracket rfl rfl [])).sign rfl

/-- Whichever groupings are kept, the layout of each expression of a list is settled. -/
theorem Expr.settled_keeping_all (keep : Place → Bool) (i : Nat) : ∀ es : List Expr,
    SpellableList IsIdentifier es → ∀ pieces ∈ piecesKeepingList keep i es, Settled pieces
  | [], _ => nofun
  | e :: es, h =>
      List.forall_mem_cons.2 ⟨Expr.settled_keeping _ e h.1, Expr.settled_keeping_all keep (i + 1) es h.2⟩

end

/-- The layout of an expression that can be written down is settled. -/
theorem Expr.settled (e : Expr) (h : e.Spellable IsIdentifier) : Settled e.pieces := by
  rw [← @piecesKeeping_eq e (fun _ => true) fun _ _ => rfl]
  exact e.settled_keeping _ h

/-! ### Statements -/

mutual

/-- The layout of a statement that can be written down is settled. -/
theorem Stmt.settled (level : Nat) : ∀ t : Stmt, t.Spellable IsIdentifier →
    Settled (t.pieces level)
  | .bind p mutable e _, h => by
      have he := (e.settled h.2).append (Settled.nil.sign (m := .semicolon) rfl) (soft_sign .semicolon rfl rfl [])
      have hp := (p.settled h.1).append
        (he.space.before (k := .mark .eq) trivial (.space _)).space (.space _)
      cases mutable with
      | false => simpa [Stmt.pieces] using hp.word .let_
      | true => simpa [Stmt.pieces] using (hp.word .mut_).word .let_
  | .assign t v _, h => by
      have hv := (v.settled h.2).append (Settled.nil.sign (m := .semicolon) rfl) (soft_sign .semicolon rfl rfl [])
      have ht := (t.settled h.1).append
        (hv.space.before (k := .mark .eq) trivial (.space _)).space (.space _)
      simpa [Stmt.pieces] using ht.word .set
  | .eval v _, h => (v.settled h).append (Settled.nil.sign rfl) (soft_sign .semicolon rfl rfl [])
  | .ret none _, _ => (Settled.nil.sign rfl).before trivial (soft_sign .semicolon rfl rfl [])
  | .ret (some v) _, h =>
      ((v.settled (h v rfl)).append (Settled.nil.sign rfl) (soft_sign .semicolon rfl rfl [])).word .return_
  | .choose bs b _, h => by
      obtain ⟨hb, hsoft⟩ := Block.settled_option level .else_ b h.2.2
      exact (Branch.settled_first level bs h.2.1).append hb hsoft
  | .loopWhile c b _, h => by
      have hc := (c.settled h.1).append (Block.settled level b h.2).space (.space _)
      simpa [Stmt.pieces] using hc.word .while_
  | .loopFor p e b _, h => by
      have he := (e.settled h.2.1).append (Block.settled level b h.2.2).space (.space _)
      have hp := (p.settled h.1).append (he.word .in_).space (.space _)
      simpa [Stmt.pieces] using hp.word .for_
  | .loopUntil b c x _, h => by
      obtain ⟨hx, hsoft⟩ := Block.settled_option level .fixup x h.2.2
      have hend := hx.append (Settled.nil.sign (m := .semicolon) rfl) (soft_sign .semicolon rfl rfl [])
      have hc := (c.settled h.2.1).append hend (hsoft.append (soft_sign .semicolon rfl rfl []))
      have hb := (Block.settled level b h.1).append (hc.word .until_).space (.space _)
      simpa [Stmt.pieces] using hb.word .repeat_
  | .block b _, h => Block.settled level b h

/-- The layout of a block that can be written down is settled. -/
theorem Block.settled (level : Nat) : ∀ b : Block, b.Spellable IsIdentifier →
    Settled (b.pieces level)
  | ⟨[], _⟩, _ => (Settled.nil.sign rfl).sign rfl
  | ⟨t :: ts, _⟩, h => by
      have hclose : Settled [indent level, sign .rbrace] := (Settled.nil.sign rfl).indent level
      have hlines := (Stmt.settled_lines (level + 1) (t :: ts) h).append hclose (soft_blockEnd level)
      simpa [Block.pieces] using hlines.newline.sign (m := .lbrace) rfl

/-- The layout of a block after its word is settled, and it fuses with nothing before it. -/
theorem Block.settled_option (level : Nat) (w : Keyword) : ∀ b : Option Block,
    Block.SpellableOption IsIdentifier b →
      Settled (Block.optionPieces level w b) ∧ Soft (Block.optionPieces level w b)
  | none, _ => ⟨Settled.nil, .nil⟩
  | some b, h => ⟨((Block.settled level b h).word w).space, .space _⟩

/-- The layout of statements, line by line, is settled. -/
theorem Stmt.settled_lines (level : Nat) : ∀ ts : List Stmt, Stmt.SpellableList IsIdentifier ts →
    Settled (Stmt.linePieces level ts)
  | [], _ => Settled.nil
  | t :: ts, h => by
      have hts := (Stmt.settled_lines level ts h.2).newline
      simpa [Stmt.linePieces] using
        ((Stmt.settled level t h.1).append hts (.newline _)).indent level

/-- The layout of the branches of a choice is settled. -/
theorem Branch.settled_first (level : Nat) : ∀ bs : List Branch,
    Branch.SpellableList IsIdentifier bs → Settled (Branch.firstPieces level bs)
  | [], _ => Settled.nil
  | ⟨c, b⟩ :: bs, h => by
      obtain ⟨hbs, hsoft⟩ := Branch.settled_later level bs h.2.2
      have hb := (Block.settled level b h.2.1).append hbs hsoft
      have hc := (c.settled h.1).append hb.space (.space _)
      simpa [Branch.firstPieces] using hc.word .if_

/-- The layout of the branches after the first is settled, and it fuses with nothing before it. -/
theorem Branch.settled_later (level : Nat) : ∀ bs : List Branch,
    Branch.SpellableList IsIdentifier bs →
      Settled (Branch.laterPieces level bs) ∧ Soft (Branch.laterPieces level bs)
  | [], _ => ⟨Settled.nil, .nil⟩
  | ⟨c, b⟩ :: bs, h => by
      obtain ⟨hbs, hsoft⟩ := Branch.settled_later level bs h.2.2
      have hb := (Block.settled level b h.2.1).append hbs hsoft
      have hc := (c.settled h.1).append hb.space (.space _)
      refine ⟨?_, .space _⟩
      simpa [Branch.laterPieces] using (hc.word .elif).space

end

/-! ### Callables and programs -/

/-- The layout of a callable that can be written down is settled. -/
theorem Callable.settled (c : Callable) (h : c.Spellable IsIdentifier) : Settled c.pieces := by
  have hbody := (c.body.settled 0 h.2.2).space.sign (m := .rparen) rfl
  have hparams := (c.params.settled_list h.2.1).append hbody (soft_sign .rparen rfl rfl _)
  have hname := (hparams.sign (m := .lparen) rfl).before (k := .ident c.name) h.1 (soft_sign .lparen rfl rfl _)
  simpa [pieces] using hname.word .fn

/-- The layout of callables with empty lines between them is settled. -/
theorem Callable.settled_paragraphs : ∀ cs : List Callable, (∀ c ∈ cs, c.Spellable IsIdentifier) →
    Settled (paragraphPieces cs)
  | [], _ => Settled.nil
  | [c], h => (c.settled (h c List.mem_cons_self)).append Settled.nil.newline (.newline _)
  | c :: c' :: cs, h => by
      obtain ⟨hc, hcs⟩ := List.forall_mem_cons.1 h
      have hlater := (Callable.settled_paragraphs (c' :: cs) hcs).newline.newline
      simpa [paragraphPieces] using (c.settled hc).append hlater (.newline _)

/-- The layout of a program that can be written down is settled. -/
theorem Program.settled (p : Program) (h : p.Spellable IsIdentifier) : Settled p.pieces :=
  Callable.settled_paragraphs p.callables h

end Freshen
