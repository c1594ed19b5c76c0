import Mathlib
import Freshen.Layout.Printer
import Freshen.Proofs.Tree.Spans

/-!
# Printing and spans

Where the parts of a tree stand has no part in how the tree is printed.

**Key results.** `Callable.pieces_mapSpans`: a callable has the same layout under a change of spans;
`Program.format_mapSpans`, `Program.format_eq_of_withoutSpans`: the text of a program depends on the
program up to spans alone.
-/

namespace Freshen

variable (f : Span → Span)

/-! ### Types and binding sites -/

mutual

/-- The layout of a type does not depend on spans. -/
theorem TypeExpr.pieces_mapSpans : ∀ t : TypeExpr, (t.mapSpans f).pieces = t.pieces
  | .named _ [] _ => rfl
  | .named _ (t :: ts) _ => by
      simp [TypeExpr.mapSpans, TypeExpr.mapSpansList, TypeExpr.pieces, TypeExpr.piecesList,
        TypeExpr.pieces_mapSpans t, TypeExpr.piecesList_mapSpans ts]
  | .tuple items _ => by simp only [mapSpans, pieces, TypeExpr.piecesList_mapSpans items]
  | .array elem _ => by simp only [mapSpans, pieces, TypeExpr.pieces_mapSpans elem]

/-- Nor do those of the types of a list. -/
theorem TypeExpr.piecesList_mapSpans : ∀ ts : List TypeExpr,
    piecesList (mapSpansList f ts) = piecesList ts
  | [] => rfl
  | t :: ts => congrArg₂ _ (TypeExpr.pieces_mapSpans t) (TypeExpr.piecesList_mapSpans ts)

end

/-- The layout of a binding site does not depend on spans. -/
theorem Binder.pieces_mapSpans (b : Binder) : (b.mapSpans f).pieces = b.pieces := by
  obtain ⟨name, _ | type, span⟩ := b
  · rfl
  · simp only [pieces, mapSpans, Option.map_some, type.pieces_mapSpans]

mutual

/-- The layout of a pattern does not depend on spans. -/
theorem Pattern.pieces_mapSpans : ∀ p : Pattern, (p.mapSpans f).pieces = p.pieces
  | .binder b => b.pieces_mapSpans f
  | .tuple items _ => by
      simp only [mapSpans, pieces, Pattern.piecesList_mapSpans items]
      rw [mapSpansList_eq_map, List.length_map]
  | .discard _ | .invalid _ => rfl

/-- Nor do those of the patterns of a list. -/
theorem Pattern.piecesList_mapSpans : ∀ ps : List Pattern,
    piecesList (mapSpansList f ps) = piecesList ps
  | [] => rfl
  | p :: ps => congrArg₂ _ (Pattern.pieces_mapSpans p) (Pattern.piecesList_mapSpans ps)

end

mutual

/-- The layout of parameters does not depend on spans. -/
theorem Params.pieces_mapSpans : ∀ p : Params, (p.mapSpans f).pieces = p.pieces
  | .binder b => b.pieces_mapSpans f
  | .tuple items _ => by simp only [mapSpans, pieces, Params.piecesList_mapSpans items]
  | .unnamed _ => rfl

/-- Nor do those of the items of a list of parameters. -/
theorem Params.piecesList_mapSpans : ∀ ps : List Params,
    piecesList (mapSpansList f ps) = piecesList ps
  | [] => rfl
  | p :: ps => congrArg₂ _ (Params.pieces_mapSpans p) (Params.piecesList_mapSpans ps)

end

/-- The layout of the parameters of a callable does not depend on spans. -/
theorem Params.listPieces_mapSpans : ∀ p : Params, (p.mapSpans f).listPieces = p.listPieces
  | .binder b => b.pieces_mapSpans f
  | .tuple items _ => by simp only [mapSpans, listPieces, Params.piecesList_mapSpans f items]
  | .unnamed _ => rfl

/-! ### Expressions and statements -/

/-- The strength of an expression does not depend on spans. -/
theorem Expr.strength_mapSpans (e : Expr) : (e.mapSpans f).strength = e.strength := by
  cases e <;> rfl

/-- The layout of type arguments does not depend on spans. -/
theorem TypeExpr.argumentPieces_mapSpans (args : Option (List TypeExpr)) :
    argumentPieces (args.map (mapSpansList f)) = argumentPieces args := by
  cases args with
  | none => rfl
  | some args => simp only [Option.map_some, argumentPieces, piecesList_mapSpans]

mutual

/-- The layout of an expression does not depend on spans. -/
theorem Expr.pieces_mapSpans : ∀ e : Expr, (e.mapSpans f).pieces = e.pieces
  | .int _ _ | .bool _ _ | .str _ _ | .unit _ => rfl
  | .ref _ args _ => by simp only [mapSpans, pieces, TypeExpr.argumentPieces_mapSpans]
  | .unary _ e _ => by simp only [mapSpans, pieces, strength_mapSpans, Expr.pieces_mapSpans e]
  | .binary _ l r _ => by
      simp only [mapSpans, pieces, strength_mapSpans, Expr.pieces_mapSpans l, Expr.pieces_mapSpans r]
  | .call c args _ => by
      simp only [mapSpans, pieces, strength_mapSpans, Expr.pieces_mapSpans c,
        Expr.piecesList_mapSpans args]
  | .index b i _ => by
      simp only [mapSpans, pieces, strength_mapSpans, Expr.pieces_mapSpans b, Expr.pieces_mapSpans i]
  | .tuple items _ => by
      simp only [mapSpans, pieces, Expr.piecesList_mapSpans items]
      rw [mapSpansList_eq_map, List.length_map]
  | .array items _ => by simp only [mapSpans, pieces, Expr.piecesList_mapSpans items]

/-- Nor do those of the expressions of a list. -/
theorem Expr.piecesList_mapSpans : ∀ es : List Expr, piecesList (mapSpansList f es) = piecesList es
  | [] => rfl
  | e :: es => congrArg₂ _ (Expr.pieces_mapSpans e) (Expr.piecesList_mapSpans es)

end

mutual

/-- The layout of a statement does not depend on spans. -/
theorem Stmt.pieces_mapSpans (level : Nat) : ∀ t : Stmt, (t.mapSpans f).pieces level = t.pieces level
  | .bind p _ e _ => by
      simp only [Stmt.mapSpans, Stmt.pieces, p.pieces_mapSpans, e.pieces_mapSpans]
  | .assign t v _ => by
      simp only [Stmt.mapSpans, Stmt.pieces, t.pieces_mapSpans, v.pieces_mapSpans]
  | .eval v _ => by simp only [Stmt.mapSpans, Stmt.pieces, v.pieces_mapSpans]
  | .ret none _ => rfl
  | .ret (some v) _ => by
      simp only [Stmt.mapSpans, Stmt.pieces, Option.map_some, v.pieces_mapSpans]
  | .choose bs b _ => by
      simp only [Stmt.mapSpans, Stmt.pieces, Branch.firstPieces_mapSpans level bs,
        Block.optionPieces_mapSpans level .else_ b]
  | .loopWhile c b _ => by
      simp only [Stmt.mapSpans, Stmt.pieces, c.pieces_mapSpans, Block.pieces_mapSpans level b]
  | .loopFor p e b _ => by
      simp only [Stmt.mapSpans, Stmt.pieces, p.pieces_mapSpans, e.pieces_mapSpans,
        Block.pieces_mapSpans level b]
  | .loopUntil b c x _ => by
      simp only [Stmt.mapSpans, Stmt.pieces, c.pieces_mapSpans, Block.pieces_mapSpans level b,
        Block.optionPieces_mapSpans level .fixup x]
  | .block b _ => Block.pieces_mapSpans level b

/-- The layout of a block does not depend on spans. -/
theorem Block.pieces_mapSpans (level : Nat) : ∀ b : Block,
    (b.mapSpans f).pieces level = b.pieces level
  | ⟨[], _⟩ => rfl
  | ⟨t :: ts, _⟩ => by
      simp only [Block.mapSpans, Stmt.mapSpansList, Block.pieces, Stmt.linePieces, List.isEmpty_cons,
        Stmt.pieces_mapSpans (level + 1) t, Stmt.linePieces_mapSpans (level + 1) ts]

/-- The layout of a block after its word does not depend on spans. -/
theorem Block.optionPieces_mapSpans (level : Nat) (w : Keyword) : ∀ b : Option Block,
    Block.optionPieces level w (Block.mapSpansOption f b) = Block.optionPieces level w b
  | none => rfl
  | some b => by
      simp only [Block.mapSpansOption, Block.optionPieces, Block.pieces_mapSpans level b]

/-- The layout of statements, line by line, does not depend on spans. -/
theorem Stmt.linePieces_mapSpans (level : Nat) : ∀ ts : List Stmt,
    Stmt.linePieces level (Stmt.mapSpansList f ts) = Stmt.linePieces level ts
  | [] => rfl
  | t :: ts => by
      simp only [Stmt.mapSpansList, Stmt.linePieces, Stmt.pieces_mapSpans level t,
        Stmt.linePieces_mapSpans level ts]

/-- The layout of the branches of a choice does not depend on spans. -/
theorem Branch.firstPieces_mapSpans (level : Nat) : ∀ bs : List Branch,
    Branch.firstPieces level (Branch.mapSpansList f bs) = Branch.firstPieces level bs
  | [] => rfl
  | ⟨c, b⟩ :: bs => by
      simp only [Branch.mapSpansList, Branch.firstPieces, c.pieces_mapSpans,
        Block.pieces_mapSpans level b, Branch.laterPieces_mapSpans level bs]

/-- The layout of the branches after the first does not depend on spans. -/
theorem Branch.laterPieces_mapSpans (level : Nat) : ∀ bs : List Branch,
    Branch.laterPieces level (Branch.mapSpansList f bs) = Branch.laterPieces level bs
  | [] => rfl
  | ⟨c, b⟩ :: bs => by
      simp only [Branch.mapSpansList, Branch.laterPieces, c.pieces_mapSpans,
        Block.pieces_mapSpans level b, Branch.laterPieces_mapSpans level bs]

end

/-! ### Callables and programs -/

/-- The layout of a callable does not depend on spans. -/
theorem Callable.pieces_mapSpans (c : Callable) : (c.mapSpans f).pieces = c.pieces := by
  simp only [pieces, mapSpans, c.params.listPieces_mapSpans, c.body.pieces_mapSpans]

/-- The layout of callables with empty lines between them does not depend on spans. -/
theorem Callable.paragraphPieces_mapSpans : ∀ cs : List Callable,
    paragraphPieces (cs.map (mapSpans f)) = paragraphPieces cs
  | [] => rfl
  | [c] => by simp only [List.map_cons, List.map_nil, paragraphPieces, c.pieces_mapSpans]
  | c :: d :: cs => by
      have h := paragraphPieces_mapSpans (d :: cs)
      simp only [List.map_cons, paragraphPieces, c.pieces_mapSpans] at h ⊢
      rw [h]

/-- The text of a program does not depend on spans. -/
theorem Program.format_mapSpans (p : Program) : (p.mapSpans f).format = p.format := by
  simp only [format, pieces, mapSpans, Callable.paragraphPieces_mapSpans]

/-- Programs that are equal up to spans are printed as the same text. -/
theorem Program.format_eq_of_withoutSpans {p q : Program} (h : p.withoutSpans = q.withoutSpans) :
    p.format = q.format := by
  rw [← p.format_mapSpans fun _ => .nowhere, ← q.format_mapSpans fun _ => .nowhere]
  exact congrArg format h

end Freshen
