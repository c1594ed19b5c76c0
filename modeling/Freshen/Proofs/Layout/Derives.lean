import Mathlib
import Freshen.Layout.Printer
import Freshen.Proofs.Grammar.Derivation
import Freshen.Proofs.Layout.Legible
import Freshen.Proofs.Tree.Spellable

/-!
# Layouts derive their trees

The tokens in the layout of a spellable tree derive the tree.  An expression is derived at the level of
its strength, so that the parentheses of the layout, and no others, are needed.

**Key results.** `Expr.derives`, `Callable.derives`, `Program.derives`.
-/

namespace Freshen

open Grammar Piece

/-! ### Items with commas between them -/

namespace Grammar

variable {α : Type} {R : List TokenKind → α → Prop} (pieces : α → List Piece) {xs : List α}

/-- Laid-out items with commas between them. -/
theorem SepBy.commaSeparated (h : ∀ x ∈ xs, R (tokens (pieces x)) x) :
    SepBy R (tokens (Piece.commaSeparated (xs.map pieces))) xs (decide (1 < xs.length)) := by
  induction xs with
  | nil => exact .nil
  | cons x xs ih =>
      obtain ⟨hx, hxs⟩ := List.forall_mem_cons.1 h
      cases xs with
      | nil => exact .last hx
      | cons y ys => simpa [Piece.commaSeparated] using SepBy.cons hx (ih hxs)

/-- Laid-out items of a tuple, of which a single one is followed by a comma. -/
theorem SepBy.tupleItems (h : ∀ x ∈ xs, R (tokens (pieces x)) x) :
    SepBy R (tokens (Piece.commaSeparated (xs.map pieces) ++
      if xs.length = 1 then [sign .comma] else [])) xs (decide (1 ≤ xs.length)) := by
  rcases xs with _ | ⟨x, _ | ⟨y, ys⟩⟩
  · exact .nil
  · simpa [Piece.commaSeparated] using SepBy.cons (h x List.mem_cons_self) SepBy.nil
  · simpa using SepBy.commaSeparated pieces h

end Grammar

/-! ### Types and binding sites -/

/-- The types of a list are laid out one by one. -/
theorem TypeExpr.piecesList_eq_map (ts : List TypeExpr) : piecesList ts = ts.map pieces := by
  induction ts with
  | nil => rfl
  | cons t ts ih => simp [piecesList, ih]

/-- The patterns of a list are laid out one by one. -/
theorem Pattern.piecesList_eq_map (ps : List Pattern) : piecesList ps = ps.map pieces := by
  induction ps with
  | nil => rfl
  | cons p ps ih => simp [piecesList, ih]

/-- The parameters of a list are laid out one by one. -/
theorem Params.piecesList_eq_map (ps : List Params) : piecesList ps = ps.map pieces := by
  induction ps with
  | nil => rfl
  | cons p ps ih => simp [piecesList, ih]

/-- The expressions of a list are laid out one by one. -/
theorem Expr.piecesList_eq_map (es : List Expr) : piecesList es = es.map pieces := by
  induction es with
  | nil => rfl
  | cons e es ih => simp [piecesList, ih]

mutual

/-- The tokens that a type is laid out in stand for this type. -/
theorem TypeExpr.derives : ∀ t : TypeExpr, IsType (tokens t.pieces) t
  | .named n [] span => .named n span
  | .named n (arg :: args) span => by
      have hargs := SepBy.commaSeparated TypeExpr.pieces
        (TypeExpr.derives_all (arg :: args))
      simpa [pieces, piecesList_eq_map] using IsType.applied n span hargs
  | .tuple items span => by
      have hitems := SepBy.commaSeparated TypeExpr.pieces (TypeExpr.derives_all items)
      simpa [pieces, piecesList_eq_map] using IsType.tuple span hitems
  | .array elem span => by
      simpa [pieces] using IsType.array span (TypeExpr.derives elem)

/-- So do those of each type of a list. -/
theorem TypeExpr.derives_all : ∀ ts : List TypeExpr, ∀ t ∈ ts, IsType (tokens t.pieces) t
  | [] => nofun
  | t :: ts => List.forall_mem_cons.2 ⟨TypeExpr.derives t, TypeExpr.derives_all ts⟩

end

/-- The tokens that a binding site is laid out in stand for this site. -/
theorem Binder.derives (b : Binder) : IsBinder (tokens b.pieces) b := by
  obtain ⟨name, type, span⟩ := b
  cases type with
  | none => exact .mk name span .none
  | some type => exact .mk name span (.some type.derives)

variable {ok : Name → Prop}

mutual

/-- The tokens that a pattern is laid out in stand for this pattern. -/
theorem Pattern.derives : ∀ p : Pattern, p.Spellable ok → IsPattern (tokens p.pieces) p
  | .binder b, _ => .binder b.derives
  | .tuple items span, h => by
      have hitems := SepBy.tupleItems Pattern.pieces (Pattern.derives_all items h)
      have hcomma : items.length = 1 → decide (1 ≤ items.length) = true := by simp +contextual
      simpa [pieces, piecesList_eq_map] using IsPattern.tuple span hitems hcomma
  | .discard span, _ => .discard span

/-- So do those of each pattern of a list. -/
theorem Pattern.derives_all : ∀ ps : List Pattern, SpellableList ok ps →
    ∀ p ∈ ps, IsPattern (tokens p.pieces) p
  | [], _ => nofun
  | p :: ps, h => List.forall_mem_cons.2 ⟨Pattern.derives p h.1, Pattern.derives_all ps h.2⟩

end

mutual

/-- The tokens that a parameter is laid out in stand for this parameter. -/
theorem Params.derives : ∀ p : Params, p.Spellable ok → IsParam (tokens p.pieces) p
  | .binder b, _ => .binder b.derives
  | .tuple items span, h => by
      have hitems := SepBy.commaSeparated Params.pieces (Params.derives_all items h.2)
      simpa [pieces, piecesList_eq_map] using IsParam.tuple span hitems h.1
  | .unnamed span, _ => .unnamed span

/-- So do those of each item of a list of parameters. -/
theorem Params.derives_all : ∀ ps : List Params, SpellableList ok ps →
    ∀ p ∈ ps, IsParam (tokens p.pieces) p
  | [], _ => nofun
  | p :: ps, h => List.forall_mem_cons.2 ⟨Params.derives p h.1, Params.derives_all ps h.2⟩

end

/-- The layout between the parentheses of a callable. -/
theorem Params.derives_list (p : Params) (h : p.Spellable ok) :
    IsParam (.mark .lparen :: (tokens p.listPieces ++ [.mark .rparen])) p := by
  have hp := p.derives h
  cases p with
  | tuple items span => simpa [pieces, listPieces] using hp
  | binder b => exact .paren (.last hp)
  | unnamed span => exact .paren (.last hp)

/-! ### Expressions -/

/-- The segments of a path after the first, each after its mark. -/
theorem Reference.tokens_qualified (first : Name) (qualifiers : List Name) (name : Name) :
    tokens (pieces (.qualified (first :: qualifiers) name)) =
      .ident first ::
        (qualifiers ++ [name]).flatMap fun n => [.mark .doubleColon, .ident n] := by
  induction qualifiers generalizing first with
  | nil => rfl
  | cons second qualifiers ih => simpa [pieces] using ih second

/-- The type arguments of a reference are what goes on after its last name. -/
theorem TypeExpr.derives_arguments : ∀ args : Option (List TypeExpr),
    IsPathTail (tokens (argumentPieces args)) [] args
  | none => .done
  | some args => by
      have hargs := SepBy.commaSeparated TypeExpr.pieces (TypeExpr.derives_all args)
      simpa [argumentPieces, piecesList_eq_map] using IsPathTail.args hargs

/-- More names may come before the type arguments of a path. -/
theorem Grammar.IsPathTail.segments {ks : List TokenKind} {args : Option (List TypeExpr)}
    (h : IsPathTail ks [] args) : ∀ names : List Name,
    IsPathTail (names.flatMap (fun n => [.mark .doubleColon, .ident n]) ++ ks) names args
  | [] => h
  | name :: names => .segment name (IsPathTail.segments h names)

/-- The tokens that a reference is laid out in stand for this reference. -/
theorem Reference.derives (target : Reference) (args : Option (List TypeExpr)) (span : Span)
    (h : target.Spellable ok) :
    IsExpr Precedence.atom (tokens (target.pieces ++ TypeExpr.argumentPieces args))
      (.ref target args span) := by
  have htail := TypeExpr.derives_arguments args
  cases target with
  | unqualified name => exact .unqualified name span htail
  | qualified qualifiers name =>
      obtain ⟨first, qualifiers, rfl⟩ := List.exists_cons_of_ne_nil h.1
      rw [tokens_append, tokens_qualified]
      exact .qualified first name span (htail.segments _)

/-- The token of an operator stands at the level of its precedence. -/
theorem BinaryOp.token_mem_operatorsAt (op : BinaryOp) :
    (op.token, op) ∈ operatorsAt op.precedence := by
  cases op <;> decide

namespace Expr

variable (op : BinaryOp) (e f : Expr) (es : List Expr) (span : Span)

/-- A binary operation is as strong as its operator. -/
@[simp] theorem strength_binary : (binary op e f span).strength = op.precedence := rfl

/-- A prefix operation is as strong as all prefix operators. -/
@[simp] theorem strength_unary (op : UnaryOp) : (unary op e span).strength = Precedence.unary := rfl

/-- A call is as strong as what calls and indexing are applied to. -/
@[simp] theorem strength_call : (call e es span).strength = Precedence.postfixed := rfl

/-- An indexing is as strong as what calls and indexing are applied to. -/
@[simp] theorem strength_index : (index e f span).strength = Precedence.postfixed := rfl

/-- A tuple needs no parentheses. -/
@[simp] theorem strength_tuple : (tuple es span).strength = Precedence.atom := rfl

/-- An array needs no parentheses. -/
@[simp] theorem strength_array : (array es span).strength = Precedence.atom := rfl

end Expr

/-- Every expression is strong enough to stand where any may. -/
theorem Expr.strength_pos (e : Expr) : 1 ≤ e.strength := by
  cases e with
  | binary op => exact op.precedence_pos
  | int value => simp only [strength]; split <;> decide
  | _ => simp [strength, Precedence.unary, Precedence.postfixed, Precedence.atom]

/-- An operand is derived at the level that is asked for: it is put between parentheses if it binds
less tight. -/
theorem Expr.derives_parenthesized (level : Nat) {e : Expr}
    (h : IsExpr e.strength (tokens e.pieces) e) (hlevel : level ≤ Precedence.atom) :
    IsExpr level (tokens (parenthesized (e.strength < level) e.pieces)) e := by
  by_cases hlt : e.strength < level
  · have hparen : IsExpr Precedence.atom
        (tokens ([sign .lparen] ++ e.pieces ++ [sign .rparen])) e := by
      simpa using IsExpr.paren (h.mono e.strength_pos)
    simpa [parenthesized, hlt] using hparen.mono hlevel
  · simpa [parenthesized, hlt] using h.mono (Nat.not_lt.1 hlt)

mutual

/-- The tokens that an expression is laid out in stand for this expression, at the level of its strength. -/
theorem Expr.derives : ∀ e : Expr, e.Spellable ok → IsExpr e.strength (tokens e.pieces) e
  | .int value span, h => by
      rw [strength, if_neg (Int64.not_lt.2 h)]
      exact .int value span
  | .bool true span, _ => .bool true span
  | .bool false span, _ => .bool false span
  | .str value span, _ => .str value span
  | .unit span, _ => .unit span
  | .ref target args span, h => target.derives args span h.1
  | .unary op e span, h => by
      have he := Expr.derives_parenthesized Precedence.unary (Expr.derives e h)
        (by decide)
      cases op with
      | neg => simpa [pieces, UnaryOp.pieces, unaryToken] using IsExpr.unary .neg span he
      | not => simpa [pieces, UnaryOp.pieces, unaryToken] using IsExpr.unary .not span he
  | .binary op l r span, h => by
      have hl := Expr.derives_parenthesized op.precedence (Expr.derives l h.1)
        (op.precedence_lt_unary.le.trans (by decide))
      have hr := Expr.derives_parenthesized (op.precedence + 1) (Expr.derives r h.2)
        (Nat.succ_le_of_lt op.precedence_lt_unary |>.trans (by decide))
      simpa [pieces] using IsExpr.binary op.token span op.token_mem_operatorsAt hl hr
  | .call f args span, h => by
      have hf := Expr.derives_parenthesized Precedence.postfixed (Expr.derives f h.1)
        (by decide)
      have hargs := SepBy.commaSeparated Expr.pieces (Expr.derives_all args h.2)
      simpa [pieces, piecesList_eq_map] using IsExpr.call span hf hargs
  | .index b i span, h => by
      have hb := Expr.derives_parenthesized Precedence.postfixed (Expr.derives b h.1)
        (by decide)
      have hi := (Expr.derives i h.2).mono i.strength_pos
      simpa [pieces] using IsExpr.index span hb hi
  | .tuple items span, h => by
      have hitems := SepBy.tupleItems Expr.pieces (Expr.derives_all items h.2)
      have hcomma : items.length = 1 → decide (1 ≤ items.length) = true := by simp +contextual
      simpa [pieces, piecesList_eq_map] using IsExpr.tuple span hitems h.1 hcomma
  | .array items span, h => by
      have hitems := SepBy.commaSeparated Expr.pieces (Expr.derives_all items h)
      simpa [pieces, piecesList_eq_map] using IsExpr.array span hitems

/-- Those of each expression of a list do so at the loosest level. -/
theorem Expr.derives_all : ∀ es : List Expr, SpellableList ok es →
    ∀ e ∈ es, IsExpr 1 (tokens e.pieces) e
  | [], _ => nofun
  | e :: es, h =>
      List.forall_mem_cons.2 ⟨(Expr.derives e h.1).mono e.strength_pos, Expr.derives_all es h.2⟩

end

/-- The tokens in the layout of an expression derive it. -/
theorem Expr.derives_one (e : Expr) (h : e.Spellable ok) : IsExpr 1 (tokens e.pieces) e :=
  (e.derives h).mono e.strength_pos

/-! ### Statements -/

mutual

/-- The tokens that a statement is laid out in stand for this statement. -/
theorem Stmt.derives (level : Nat) : ∀ t : Stmt, t.Spellable ok →
    IsStmt (tokens (t.pieces level)) t
  | .bind p mutable e span, h => by
      have hp := p.derives h.1
      have he := e.derives_one h.2
      cases mutable with
      | false => simpa [Stmt.pieces] using IsStmt.bind span hp he
      | true => simpa [Stmt.pieces] using IsStmt.bindMut span hp he
  | .assign t v span, h => by
      simpa [Stmt.pieces] using IsStmt.assign span (t.derives_one h.1) (v.derives_one h.2)
  | .eval v span, h => by simpa [Stmt.pieces] using IsStmt.eval span (v.derives_one h)
  | .ret none span, _ => .retNone span
  | .ret (some v) span, h => by simpa [Stmt.pieces] using IsStmt.ret span (v.derives_one (h v rfl))
  | .choose bs b span, h => by
      have hbs := Branch.derives level bs h.1 h.2.1
      have hb := Block.derives_option level .else_ b h.2.2
      obtain ⟨⟨c, body⟩, bs, rfl⟩ := List.exists_cons_of_ne_nil h.1
      simpa [Stmt.pieces, Branch.firstPieces] using IsStmt.choose span hbs hb
  | .loopWhile c b span, h => by
      simpa [Stmt.pieces] using IsStmt.loopWhile span (c.derives_one h.1) (Block.derives level b h.2)
  | .loopFor p e b span, h => by
      simpa [Stmt.pieces] using
        IsStmt.loopFor span (p.derives h.1) (e.derives_one h.2.1) (Block.derives level b h.2.2)
  | .loopUntil b c x span, h => by
      simpa [Stmt.pieces] using IsStmt.loopUntil span (Block.derives level b h.1) (c.derives_one h.2.1)
        (Block.derives_option level .fixup x h.2.2)
  | .block b span, h => .block span (Block.derives level b h)

/-- The tokens that a block is laid out in stand for this block. -/
theorem Block.derives (level : Nat) : ∀ b : Block, b.Spellable ok →
    IsBlock (tokens (b.pieces level)) b
  | ⟨[], span⟩, _ => .mk span .nil
  | ⟨t :: ts, span⟩, h => by
      simpa [Block.pieces] using IsBlock.mk span (Stmt.derives_lines (level + 1) (t :: ts) h)

/-- The tokens of a block after its word stand for the block, and there are none if it is missing. -/
theorem Block.derives_option (level : Nat) (word : Keyword) : ∀ b : Option Block,
    Block.SpellableOption ok b → IsBlockAfter word (tokens (Block.optionPieces level word b)) b
  | none, _ => .none
  | some b, h => .some (Block.derives level b h)

/-- The tokens that statements are laid out in, line by line, stand for these statements. -/
theorem Stmt.derives_lines (level : Nat) : ∀ ts : List Stmt, Stmt.SpellableList ok ts →
    IsStmts (tokens (Stmt.linePieces level ts)) ts
  | [], _ => .nil
  | t :: ts, h => by
      simpa [Stmt.linePieces] using
        IsStmts.cons (Stmt.derives level t h.1) (Stmt.derives_lines level ts h.2)

/-- After the first word, the tokens that branches are laid out in stand for these branches. -/
theorem Branch.derives (level : Nat) : ∀ bs : List Branch, bs ≠ [] → Branch.SpellableList ok bs →
    IsBranches (tokens (Branch.firstPieces level bs)).tail bs
  | [⟨c, b⟩], _, h => by
      simpa [Branch.firstPieces, Branch.laterPieces] using
        IsBranches.last (c.derives_one h.1) (Block.derives level b h.2.1)
  | ⟨c, b⟩ :: ⟨c', b'⟩ :: bs, _, h => by
      have hbs := Branch.derives level (⟨c', b'⟩ :: bs) (by simp) h.2.2
      simpa [Branch.firstPieces, Branch.laterPieces] using
        IsBranches.cons (c.derives_one h.1) (Block.derives level b h.2.1) hbs

end

/-! ### Callables and programs -/

/-- The tokens that a callable is laid out in stand for this callable. -/
theorem Callable.derives (c : Callable) (h : c.Spellable ok) : IsCallable (tokens c.pieces) c := by
  obtain ⟨name, params, body, span⟩ := c
  simpa [pieces] using IsCallable.mk name span (params.derives_list h.2.1) (body.derives 0 h.2.2)

/-- The tokens that callables are laid out in, with empty lines between them, stand for these callables. -/
theorem Callable.derives_paragraphs : ∀ cs : List Callable, (∀ c ∈ cs, c.Spellable ok) →
    IsCallables (tokens (paragraphPieces cs)) cs
  | [], _ => .nil
  | [c], h => by
      simpa [paragraphPieces] using IsCallables.cons (c.derives (h c List.mem_cons_self)) .nil
  | c :: c' :: cs, h => by
      obtain ⟨hc, hcs⟩ := List.forall_mem_cons.1 h
      simpa [paragraphPieces] using
        IsCallables.cons (c.derives hc) (Callable.derives_paragraphs (c' :: cs) hcs)

/-- The tokens that a program is laid out in stand for this program. -/
theorem Program.derives (p : Program) (h : p.Spellable ok) : IsProgram (tokens p.pieces) p :=
  Callable.derives_paragraphs p.callables h

end Freshen
