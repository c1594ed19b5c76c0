import Mathlib
import Freshen.Proofs.Grammar.Derivation
import Freshen.Proofs.Tree.Spans

/-!
# Derivations up to spans

A derivation says nothing of where a tree stands: what derives a tree derives every tree that is equal to
it without spans.

- `SepBy.of_map_eq`: the statement for lists, from the statement for their items.

**Key results.** `IsExpr.of_withoutSpans`, `IsCallable.of_withoutSpans`, `IsProgram.of_withoutSpans`.
-/

namespace Freshen.Grammar

/-! ### Lists -/

/-- If the tokens of each item are those of every item that looks like it, then the tokens of a list are
those of every list whose items look the same. -/
theorem SepBy.of_map_eq {α : Type} {Item : List TokenKind → α → Prop} {blot : α → α}
    {ks : List TokenKind} {xs xs' : List α} {comma : Bool}
    (h : SepBy (fun ks x => ∀ x', blot x' = blot x → Item ks x') ks xs comma)
    (heq : xs'.map blot = xs.map blot) : SepBy Item ks xs' comma := by
  induction h generalizing xs' with
  | nil =>
      rw [List.map_eq_nil_iff.1 heq]
      exact .nil
  | last hx =>
      obtain ⟨x', rfl, hx'⟩ := List.map_eq_singleton_iff.1 heq
      exact .last (hx x' hx')
  | cons hx _ ih =>
      obtain ⟨x', xs', rfl, hx', hxs'⟩ := List.map_eq_cons_iff.1 heq
      exact .cons (hx x' hx') (ih hxs')

/-- Lists whose items look the same have as many of them. -/
theorem length_eq_of_map_eq {α β : Type} {blot : α → β} {xs xs' : List α}
    (h : xs'.map blot = xs.map blot) : xs'.length = xs.length := by
  simpa only [List.length_map] using congrArg List.length h

/-! ### Types and binding sites -/

mutual

/-- Which tokens are a type does not depend on its spans. -/
theorem IsType.of_withoutSpans {ks : List TokenKind} {t t' : TypeExpr} :
    IsType ks t → t'.withoutSpans = t.withoutSpans → IsType ks t'
  | .named name _, h => by
      cases t' with
      | named name' args' span' =>
          obtain ⟨rfl, hargs, -⟩ := TypeExpr.named.inj h
          cases args' with
          | nil => exact .named _ span'
          | cons => cases hargs
      | _ => cases h
  | .applied name _ hargs, h => by
      cases t' with
      | named name' args' span' =>
          obtain ⟨rfl, hargs', -⟩ := TypeExpr.named.inj h
          rw [TypeExpr.mapSpansList_eq_map, TypeExpr.mapSpansList_eq_map] at hargs'
          exact .applied _ span' ((SepBy.typesUpToSpans hargs).of_map_eq hargs')
      | _ => cases h
  | .tuple _ hitems, h => by
      cases t' with
      | tuple items' span' =>
          have hitems' := (TypeExpr.tuple.inj h).1
          rw [TypeExpr.mapSpansList_eq_map, TypeExpr.mapSpansList_eq_map] at hitems'
          exact .tuple span' ((SepBy.typesUpToSpans hitems).of_map_eq hitems')
      | _ => cases h
  | .array _ helem, h => by
      cases t' with
      | array elem' span' =>
          exact .array span' (IsType.of_withoutSpans helem (TypeExpr.array.inj h).1)
      | _ => cases h

/-- The types of a list may be given other spans. -/
theorem SepBy.typesUpToSpans {ks : List TokenKind} {types : List TypeExpr} {comma : Bool} :
    SepBy IsType ks types comma →
    SepBy (fun ks t => ∀ t' : TypeExpr, t'.withoutSpans = t.withoutSpans → IsType ks t') ks types comma
  | .nil => .nil
  | .last ht => .last fun _ => IsType.of_withoutSpans ht
  | .cons ht hts => .cons (fun _ => IsType.of_withoutSpans ht) (SepBy.typesUpToSpans hts)

end

/-- Which tokens are the type of a binding site does not depend on its spans. -/
theorem IsAnnotation.of_withoutSpans {ks : List TokenKind} {type type' : Option TypeExpr}
    (h : IsAnnotation ks type)
    (heq : type'.map TypeExpr.withoutSpans = type.map TypeExpr.withoutSpans) :
    IsAnnotation ks type' := by
  cases h with
  | none =>
      rw [Option.map_eq_none_iff.1 heq]
      exact .none
  | some htype =>
      obtain ⟨t', rfl, ht'⟩ := Option.map_eq_some_iff.1 heq
      exact .some (htype.of_withoutSpans ht')

/-- Which tokens are a binding site does not depend on its spans. -/
theorem IsBinder.of_withoutSpans {ks : List TokenKind} {b b' : Binder} (h : IsBinder ks b)
    (heq : b'.mapSpans (fun _ => .nowhere) = b.mapSpans fun _ => .nowhere) : IsBinder ks b' := by
  obtain ⟨name, span, htype⟩ := h
  obtain ⟨name', type', span'⟩ := b'
  obtain ⟨rfl, htype', -⟩ := Binder.mk.inj heq
  exact .mk _ span' (htype.of_withoutSpans htype')

mutual

/-- Which tokens are a pattern does not depend on its spans. -/
theorem IsPattern.of_withoutSpans {ks : List TokenKind} {p p' : Pattern} :
    IsPattern ks p → p'.withoutSpans = p.withoutSpans → IsPattern ks p'
  | .binder hb, h => by
      cases p' with
      | binder b' => exact .binder (hb.of_withoutSpans (Pattern.binder.inj h))
      | _ => cases h
  | .discard _, h => by
      cases p' with
      | discard span' => exact .discard span'
      | _ => cases h
  | .paren hp, h => .paren (IsPattern.of_withoutSpans hp h)
  | .tuple _ hitems hone, h => by
      cases p' with
      | tuple items' span' =>
          have hitems' := (Pattern.tuple.inj h).1
          rw [Pattern.mapSpansList_eq_map, Pattern.mapSpansList_eq_map] at hitems'
          exact .tuple span' ((SepBy.patternsUpToSpans hitems).of_map_eq hitems')
            fun hone' => hone ((length_eq_of_map_eq hitems').symm.trans hone')
      | _ => cases h

/-- The patterns of a list may be given other spans. -/
theorem SepBy.patternsUpToSpans {ks : List TokenKind} {items : List Pattern} {comma : Bool} :
    SepBy IsPattern ks items comma →
    SepBy (fun ks p => ∀ p' : Pattern, p'.withoutSpans = p.withoutSpans → IsPattern ks p') ks items
      comma
  | .nil => .nil
  | .last hp => .last fun _ => IsPattern.of_withoutSpans hp
  | .cons hp hps => .cons (fun _ => IsPattern.of_withoutSpans hp) (SepBy.patternsUpToSpans hps)

end

mutual

/-- Which tokens are a parameter does not depend on its spans. -/
theorem IsParam.of_withoutSpans {ks : List TokenKind} {p p' : Params} :
    IsParam ks p → p'.withoutSpans = p.withoutSpans → IsParam ks p'
  | .binder hb, h => by
      cases p' with
      | binder b' => exact .binder (hb.of_withoutSpans (Params.binder.inj h))
      | _ => cases h
  | .unnamed _, h => by
      cases p' with
      | unnamed span' => exact .unnamed span'
      | _ => cases h
  | .paren hp, h => .paren ((SepBy.paramsUpToSpans hp).of_map_eq (congrArg (fun p => [p]) h))
  | .tuple _ hitems hone, h => by
      cases p' with
      | tuple items' span' =>
          have hitems' := (Params.tuple.inj h).1
          rw [Params.mapSpansList_eq_map, Params.mapSpansList_eq_map] at hitems'
          exact .tuple span' ((SepBy.paramsUpToSpans hitems).of_map_eq hitems')
            fun hone' => hone ((length_eq_of_map_eq hitems').symm.trans hone')
      | _ => cases h

/-- The parameters of a list may be given other spans. -/
theorem SepBy.paramsUpToSpans {ks : List TokenKind} {items : List Params} {comma : Bool} :
    SepBy IsParam ks items comma →
    SepBy (fun ks p => ∀ p' : Params, p'.withoutSpans = p.withoutSpans → IsParam ks p') ks items comma
  | .nil => .nil
  | .last hp => .last fun _ => IsParam.of_withoutSpans hp
  | .cons hp hps => .cons (fun _ => IsParam.of_withoutSpans hp) (SepBy.paramsUpToSpans hps)

end

/-! ### Expressions -/

/-- Which tokens go on with a path does not depend on the spans in its type arguments. -/
theorem IsPathTail.of_withoutSpans {ks : List TokenKind} {names : List Name}
    {args args' : Option (List TypeExpr)} (h : IsPathTail ks names args)
    (heq : args'.map (TypeExpr.mapSpansList fun _ => .nowhere) =
      args.map (TypeExpr.mapSpansList fun _ => .nowhere)) : IsPathTail ks names args' := by
  induction h with
  | done =>
      rw [Option.map_eq_none_iff.1 heq]
      exact .done
  | segment name _ ih => exact .segment name (ih heq)
  | args hargs =>
      obtain ⟨types', rfl, htypes'⟩ := Option.map_eq_some_iff.1 heq
      rw [TypeExpr.mapSpansList_eq_map, TypeExpr.mapSpansList_eq_map] at htypes'
      exact .args ((SepBy.typesUpToSpans hargs).of_map_eq htypes')

mutual

/-- Which tokens are an expression of a level does not depend on its spans. -/
theorem IsExpr.of_withoutSpans {level : Nat} {ks : List TokenKind} {e e' : Expr} :
    IsExpr level ks e → e'.withoutSpans = e.withoutSpans → IsExpr level ks e'
  | .tighter he, h => .tighter (IsExpr.of_withoutSpans he h)
  | .binary k _ hop hl hr, h => by
      cases e' with
      | binary op' l' r' span' =>
          obtain ⟨rfl, hl', hr', -⟩ := Expr.binary.inj h
          exact .binary k span' hop (IsExpr.of_withoutSpans hl hl') (IsExpr.of_withoutSpans hr hr')
      | _ => cases h
  | .unary op _ he, h => by
      cases e' with
      | unary op' operand' span' =>
          obtain ⟨rfl, he', -⟩ := Expr.unary.inj h
          exact .unary _ span' (IsExpr.of_withoutSpans he he')
      | _ => cases h
  | .call _ hf hargs, h => by
      cases e' with
      | call f' args' span' =>
          obtain ⟨hf', hargs', -⟩ := Expr.call.inj h
          rw [Expr.mapSpansList_eq_map, Expr.mapSpansList_eq_map] at hargs'
          exact .call span' (IsExpr.of_withoutSpans hf hf')
            ((SepBy.exprsUpToSpans hargs).of_map_eq hargs')
      | _ => cases h
  | .index _ hb hi, h => by
      cases e' with
      | index b' i' span' =>
          obtain ⟨hb', hi', -⟩ := Expr.index.inj h
          exact .index span' (IsExpr.of_withoutSpans hb hb') (IsExpr.of_withoutSpans hi hi')
      | _ => cases h
  | .int value _, h => by
      cases e' with
      | int value' span' =>
          obtain ⟨rfl, -⟩ := Expr.int.inj h
          exact .int _ span'
      | _ => cases h
  | .str value _, h => by
      cases e' with
      | str value' span' =>
          obtain ⟨rfl, -⟩ := Expr.str.inj h
          exact .str _ span'
      | _ => cases h
  | .bool value _, h => by
      cases e' with
      | bool value' span' =>
          obtain ⟨rfl, -⟩ := Expr.bool.inj h
          exact .bool _ span'
      | _ => cases h
  | .unqualified name _ htail, h => by
      cases e' with
      | ref target' args' span' =>
          obtain ⟨rfl, hargs', -⟩ := Expr.ref.inj h
          exact .unqualified name span' (htail.of_withoutSpans hargs')
      | _ => cases h
  | .qualified first name _ htail, h => by
      cases e' with
      | ref target' args' span' =>
          obtain ⟨rfl, hargs', -⟩ := Expr.ref.inj h
          exact .qualified first name span' (htail.of_withoutSpans hargs')
      | _ => cases h
  | .unit _, h => by
      cases e' with
      | unit span' => exact .unit span'
      | _ => cases h
  | .paren he, h => .paren (IsExpr.of_withoutSpans he h)
  | .tuple _ hitems hne hone, h => by
      cases e' with
      | tuple items' span' =>
          have hitems' := (Expr.tuple.inj h).1
          rw [Expr.mapSpansList_eq_map, Expr.mapSpansList_eq_map] at hitems'
          refine .tuple span' ((SepBy.exprsUpToSpans hitems).of_map_eq hitems') ?_ ?_
          · rintro rfl
            exact hne (List.map_eq_nil_iff.1 hitems'.symm)
          · exact fun hone' => hone ((length_eq_of_map_eq hitems').symm.trans hone')
      | _ => cases h
  | .array _ hitems, h => by
      cases e' with
      | array items' span' =>
          have hitems' := (Expr.array.inj h).1
          rw [Expr.mapSpansList_eq_map, Expr.mapSpansList_eq_map] at hitems'
          exact .array span' ((SepBy.exprsUpToSpans hitems).of_map_eq hitems')
      | _ => cases h

/-- The expressions of a list may be given other spans. -/
theorem SepBy.exprsUpToSpans {ks : List TokenKind} {items : List Expr} {comma : Bool} :
    SepBy (IsExpr 1) ks items comma →
    SepBy (fun ks e => ∀ e' : Expr, e'.withoutSpans = e.withoutSpans → IsExpr 1 ks e') ks items comma
  | .nil => .nil
  | .last he => .last fun _ => IsExpr.of_withoutSpans he
  | .cons he hes => .cons (fun _ => IsExpr.of_withoutSpans he) (SepBy.exprsUpToSpans hes)

end

/-! ### Statements -/

mutual

/-- Which tokens are a statement does not depend on its spans. -/
theorem IsStmt.of_withoutSpans {ks : List TokenKind} {t t' : Stmt} :
    IsStmt ks t → t'.withoutSpans = t.withoutSpans → IsStmt ks t'
  | .bind _ hp he, h => by
      cases t' with
      | bind p' mutable' e' span' =>
          obtain ⟨hp', rfl, he', -⟩ := Stmt.bind.inj h
          exact .bind span' (hp.of_withoutSpans hp') (he.of_withoutSpans he')
      | _ => cases h
  | .bindMut _ hp he, h => by
      cases t' with
      | bind p' mutable' e' span' =>
          obtain ⟨hp', rfl, he', -⟩ := Stmt.bind.inj h
          exact .bindMut span' (hp.of_withoutSpans hp') (he.of_withoutSpans he')
      | _ => cases h
  | .assign _ htarget hvalue, h => by
      cases t' with
      | assign target' value' span' =>
          obtain ⟨htarget', hvalue', -⟩ := Stmt.assign.inj h
          exact .assign span' (htarget.of_withoutSpans htarget') (hvalue.of_withoutSpans hvalue')
      | _ => cases h
  | .eval _ he, h => by
      cases t' with
      | eval e' span' => exact .eval span' (he.of_withoutSpans (Stmt.eval.inj h).1)
      | _ => cases h
  | .retNone _, h => by
      cases t' with
      | ret value' span' =>
          rw [Option.map_eq_none_iff.1 (Stmt.ret.inj h).1]
          exact .retNone span'
      | _ => cases h
  | .ret _ he, h => by
      cases t' with
      | ret value' span' =>
          obtain ⟨e', rfl, he'⟩ := Option.map_eq_some_iff.1 (Stmt.ret.inj h).1
          exact .ret span' (he.of_withoutSpans he')
      | _ => cases h
  | .choose _ hbs hb, h => by
      cases t' with
      | choose bs' b' span' =>
          obtain ⟨hbs', hb', -⟩ := Stmt.choose.inj h
          exact .choose span' (IsBranches.of_withoutSpans hbs hbs')
            (IsBlockAfter.of_withoutSpans hb hb')
      | _ => cases h
  | .loopWhile _ hc hb, h => by
      cases t' with
      | loopWhile c' b' span' =>
          obtain ⟨hc', hb', -⟩ := Stmt.loopWhile.inj h
          exact .loopWhile span' (hc.of_withoutSpans hc') (IsBlock.of_withoutSpans hb hb')
      | _ => cases h
  | .loopFor _ hp he hb, h => by
      cases t' with
      | loopFor p' e' b' span' =>
          obtain ⟨hp', he', hb', -⟩ := Stmt.loopFor.inj h
          exact .loopFor span' (hp.of_withoutSpans hp') (he.of_withoutSpans he')
            (IsBlock.of_withoutSpans hb hb')
      | _ => cases h
  | .loopUntil _ hb hc hx, h => by
      cases t' with
      | loopUntil b' c' x' span' =>
          obtain ⟨hb', hc', hx', -⟩ := Stmt.loopUntil.inj h
          exact .loopUntil span' (IsBlock.of_withoutSpans hb hb') (hc.of_withoutSpans hc')
            (IsBlockAfter.of_withoutSpans hx hx')
      | _ => cases h
  | .block _ hb, h => by
      cases t' with
      | block b' span' => exact .block span' (IsBlock.of_withoutSpans hb (Stmt.block.inj h).1)
      | _ => cases h

/-- Which tokens are a block does not depend on its spans. -/
theorem IsBlock.of_withoutSpans {ks : List TokenKind} {b b' : Block} :
    IsBlock ks b → b'.withoutSpans = b.withoutSpans → IsBlock ks b'
  | .mk _ hstmts, h => by
      obtain ⟨stmts', span'⟩ := b'
      exact .mk span' (IsStmts.of_withoutSpans hstmts (Block.mk.inj h).1)

/-- Which tokens are a block after a word does not depend on its spans. -/
theorem IsBlockAfter.of_withoutSpans {word : Keyword} {ks : List TokenKind} {b b' : Option Block} :
    IsBlockAfter word ks b →
    Block.mapSpansOption (fun _ => .nowhere) b' = Block.mapSpansOption (fun _ => .nowhere) b →
    IsBlockAfter word ks b'
  | .none, h => by
      cases b' with
      | none => exact .none
      | some b' => cases h
  | .some hb, h => by
      cases b' with
      | none => cases h
      | some b' => exact .some (IsBlock.of_withoutSpans hb (Option.some.inj h))

/-- Which tokens are statements does not depend on their spans. -/
theorem IsStmts.of_withoutSpans {ks : List TokenKind} {ts ts' : List Stmt} :
    IsStmts ks ts →
    Stmt.mapSpansList (fun _ => .nowhere) ts' = Stmt.mapSpansList (fun _ => .nowhere) ts →
    IsStmts ks ts'
  | .nil, h => by
      cases ts' with
      | nil => exact .nil
      | cons => cases h
  | .cons ht hts, h => by
      cases ts' with
      | nil => cases h
      | cons t' ts' =>
          obtain ⟨ht', hts'⟩ := List.cons.inj h
          exact .cons (IsStmt.of_withoutSpans ht ht') (IsStmts.of_withoutSpans hts hts')

/-- Which tokens are branches does not depend on their spans. -/
theorem IsBranches.of_withoutSpans {ks : List TokenKind} {bs bs' : List Branch} :
    IsBranches ks bs →
    Branch.mapSpansList (fun _ => .nowhere) bs' = Branch.mapSpansList (fun _ => .nowhere) bs →
    IsBranches ks bs'
  | .last hc hb, h => by
      rcases bs' with _ | ⟨⟨c', b'⟩, _ | ⟨⟨_, _⟩, _⟩⟩
      · cases h
      · obtain ⟨hc', hb'⟩ := Branch.mk.inj (List.cons.inj h).1
        exact .last (hc.of_withoutSpans hc') (IsBlock.of_withoutSpans hb hb')
      · cases (List.cons.inj h).2
  | .cons hc hb hbs, h => by
      rcases bs' with _ | ⟨⟨c', b'⟩, bs'⟩
      · cases h
      · obtain ⟨hfirst, hbs'⟩ := List.cons.inj h
        obtain ⟨hc', hb'⟩ := Branch.mk.inj hfirst
        exact .cons (hc.of_withoutSpans hc') (IsBlock.of_withoutSpans hb hb')
          (IsBranches.of_withoutSpans hbs hbs')

end

/-! ### Callables and programs -/

/-- Which tokens are a callable does not depend on its spans. -/
theorem IsCallable.of_withoutSpans {ks : List TokenKind} {c c' : Callable} (h : IsCallable ks c)
    (heq : c'.withoutSpans = c.withoutSpans) : IsCallable ks c' := by
  obtain ⟨name, span, hparams, hbody⟩ := h
  obtain ⟨name', params', body', span'⟩ := c'
  obtain ⟨rfl, hparams', hbody', -⟩ := Callable.mk.inj heq
  exact .mk _ span' (hparams.of_withoutSpans hparams') (hbody.of_withoutSpans hbody')

/-- Which tokens are callables does not depend on their spans. -/
theorem IsCallables.of_withoutSpans {ks : List TokenKind} {cs cs' : List Callable}
    (h : IsCallables ks cs)
    (heq : cs'.map Callable.withoutSpans = cs.map Callable.withoutSpans) : IsCallables ks cs' := by
  induction h generalizing cs' with
  | nil =>
      rw [List.map_eq_nil_iff.1 heq]
      exact .nil
  | cons hc _ ih =>
      obtain ⟨c', cs', rfl, hc', hcs'⟩ := List.map_eq_cons_iff.1 heq
      exact .cons (hc.of_withoutSpans hc') (ih hcs')

/-- Which tokens are a program does not depend on its spans. -/
theorem IsProgram.of_withoutSpans {ks : List TokenKind} {p p' : Program} (h : IsProgram ks p)
    (heq : p'.withoutSpans = p.withoutSpans) : IsProgram ks p' :=
  IsCallables.of_withoutSpans h (Program.mk.inj heq)

end Freshen.Grammar
