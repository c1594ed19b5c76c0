import Mathlib
import Freshen.Grammar.Program
import Freshen.Proofs.Grammar.Places
import Freshen.Proofs.Token.MaximalMunch

/-!
# Places of parsed trees

The place of a node is the place of its tokens, from the first one to the last one, without parentheses around
it that only group.  So a node made of other nodes covers tokens from the first one of its first part to the last
one of its last part, even where more was read for these parts.

- `locates_type`, `locates_pattern`, `locates_parameter`, `locates_exprAt`, `locates_block`, `locates_callable`,
  `locates_program`: what each rule reads covers tokens that it read.
- `TokenRow.exists_of_tokenize`: the tokens of a text stand one after the other.

**Key result.** `wellNested_of_parse`: the places of a parsed tree are nested as its nodes are.
-/

namespace Freshen

namespace Grammar

open Freshen.Parser Outline

variable {row : TokenRow} {i j : Nat}

/-! ### Types and binding sites -/

/-- Type arguments cover tokens one after the other, if there are any. -/
theorem locates_typeArgs {type : Parser TypeExpr} (h : LocatesNode row type TypeExpr.outline)
    (fuel : Nat) : Locates row i (typeArgs type fuel) fun j args =>
      TakesAll row i j (args.map TypeExpr.outline) := by
  refine .bind (.sepList _ h fuel) fun list j _ _ hlist => ?_
  exact .expect fun _ => .pure (hlist.mono le_rfl (Nat.le_succ j))

/-- A type covers some of the tokens that it is read from. -/
theorem locates_type (fuel : Nat) : LocatesNode row (type fuel) TypeExpr.outline := by
  induction fuel with
  | zero => exact fun i => .outOfFuel
  | succ fuel ih =>
      intro i
      apply Locates.peek
      intro k hk
      cases k with
      | ident name =>
          have hi := hk TokenKind.Proper.ne_eof
          refine .advance hi (.ifEat (fun _ => ?_) (.pure (takes_place hi)))
          refine .bind (locates_typeArgs ih _) fun args j _ hj hargs => ?_
          have hij : i + 1 + 1 ≤ j := hargs.le
          refine .lastSpan (by omega) (.pure ?_)
          rw [TypeExpr.outline, TypeExpr.outlineList_eq_map]
          exact (hargs.mono (by omega) le_rfl).covered (by omega) hj
      | mark mark => cases mark with
        | lparen =>
            refine .advance (hk TokenKind.Proper.ne_eof) ?_
            refine .bind (.sepList _ ih _) fun list j _ _ hlist => .expect fun hj => .pure ?_
            rw [TypeExpr.outline, TypeExpr.outlineList_eq_map]
            exact hlist.enclosed hj
        | lbracket =>
            refine .advance (hk TokenKind.Proper.ne_eof) ?_
            refine .bind (ih _) fun elem j _ _ helem => .expect fun hj => .pure ?_
            rw [TypeExpr.outline]
            exact helem.all.enclosed hj
        | _ => exact .fail _
      | _ => exact .fail _

/-- So does the type of a binding site, where there is one. -/
theorem locates_typeOption (fuel : Nat) : Locates row i ( annotation fuel) fun j type =>
    TakesAll row i j (type.map TypeExpr.outline).toList := by
  refine .ifEat (fun _ => ?_) (.pure (takesAll_nil.2 le_rfl))
  exact .bind (locates_type fuel _) fun type j _ _ htype => .pure (htype.all.mono (Nat.le_succ i) le_rfl)

/-- A binding site covers its name and its type. -/
theorem locates_binder (name : Name) (fuel : Nat) (hi : i < row.length) :
    Locates row i (binder name fuel) fun j b => b.outline.Takes row i j := by
  refine .advance hi (.bind (locates_typeOption fuel) fun type j _ _ htype => ?_)
  cases type with
  | none => exact .pure ((takes_place hi).mono le_rfl htype.le)
  | some type =>
      have hnode := (takesAll_nil.2 (Nat.le_succ i)).concluded htype.only
      rw [TypeExpr.span_outline] at hnode
      exact .pure hnode

/-- What stands in parentheses is a tuple over the parentheses, or it is the only item. -/
theorem takes_groupPatterns {items : List Pattern} (comma : Bool)
    (h : TakesAll row (i + 1) j (items.map Pattern.outline)) (hj : j < row.length) :
    (groupPatterns items comma ((row.place i).merge (row.place j))).outline.Takes row i (j + 1) := by
  have htuple := h.enclosed hj
  rw [← Pattern.outlineList_eq_map] at htuple
  match items, comma with
  | [], _ | [_], true | _ :: _ :: _, _ => exact htuple
  | [item], false => exact h.only.mono (Nat.le_succ i) (Nat.le_succ j)

/-- A pattern covers some of the tokens that it is read from. -/
theorem locates_pattern (fuel : Nat) : LocatesNode row (pattern fuel) Pattern.outline := by
  induction fuel with
  | zero => exact fun i => .outOfFuel
  | succ fuel ih =>
      intro i
      apply Locates.peek
      intro k hk
      cases k with
      | ident name =>
          have hi := hk TokenKind.Proper.ne_eof
          exact .bind (locates_binder name _ hi) fun b j _ _ hb => .pure hb.around
      | mark mark => cases mark with
        | underscore =>
            have hi := hk TokenKind.Proper.ne_eof
            exact .advance hi (.pure (takes_place hi))
        | lparen =>
            refine .advance (hk TokenKind.Proper.ne_eof) ?_
            refine .bind (.sepList _ ih _) fun list j _ _ hlist => .expect fun hj => .pure ?_
            exact takes_groupPatterns _ hlist hj
        | _ => exact .fail _
      | _ => exact .fail _

/-- Parameters between parentheses cover these, whether a tuple is made of them or not. -/
theorem takes_groupParams {items : List Params}
    (h : TakesAll row (i + 1) j (items.map Params.outline)) (hj : j < row.length) :
    (groupParams items ((row.place i).merge (row.place j))).outline.Takes row i (j + 1) := by
  have htuple := h.enclosed hj
  rw [← Params.outlineList_eq_map] at htuple
  match items with
  | [] | _ :: _ :: _ => exact htuple
  | [item] => exact h.only.mono (Nat.le_succ i) (Nat.le_succ j)

/-- A parameter covers some of the tokens that it is read from. -/
theorem locates_parameter (fuel : Nat) : LocatesNode row (parameter fuel) Params.outline := by
  induction fuel with
  | zero => exact fun i => .outOfFuel
  | succ fuel ih =>
      intro i
      apply Locates.peek
      intro k hk
      cases k with
      | ident name =>
          have hi := hk TokenKind.Proper.ne_eof
          exact .bind (locates_binder name _ hi) fun b j _ _ hb => .pure hb.around
      | mark mark => cases mark with
        | underscore =>
            have hi := hk TokenKind.Proper.ne_eof
            exact .advance hi (.pure (takes_place hi))
        | lparen =>
            refine .advance (hk TokenKind.Proper.ne_eof) ?_
            refine .bind (.sepList _ ih _) fun list j _ _ hlist => .expect fun hj => .pure ?_
            exact takes_groupParams hlist hj
        | _ => exact .fail _
      | _ => exact .fail _

/-! ### Expressions -/

/-- The names of a path have no nodes; its type arguments cover tokens one after the other. -/
theorem locates_segments (fuel : Nat) : ∀ {i}, Locates row i (segments fuel) fun j tail =>
    TakesAll row i j ((tail.2.getD []).map TypeExpr.outline) := by
  induction fuel with
  | zero => exact .outOfFuel
  | succ fuel ih =>
      intro i
      refine .ifAt (fun hi => .peekNext hi fun k hk => ?_) (.pure (takesAll_nil.2 le_rfl))
      have hnext : i ≤ i + 1 + 1 := by omega
      cases k with
      | ident name =>
          refine .advance hi (.identifier fun name _ => .bind ih fun tail j _ _ htail => .pure ?_)
          exact htail.mono hnext le_rfl
      | mark mark => cases mark with
        | lt =>
            refine .advance hi (.advance (hk TokenKind.Proper.ne_eof) ?_)
            refine .bind (locates_typeArgs (locates_type fuel) _) fun args j _ _ hargs => .pure ?_
            exact hargs.mono hnext le_rfl
        | _ => exact .advance hi (.fail _)
      | _ => exact .advance hi (.fail _)

/-- A path covers its first name and what is read after it. -/
theorem locates_path (first : Name) (fuel : Nat) (hi : i < row.length) :
    Locates row i (path first fuel) fun j e => e.outline.Takes row i j := by
  refine .advance hi (.bind (locates_segments fuel) fun tail j _ hj htail => ?_)
  have hij : i < j := htail.le
  refine .lastSpan (Nat.zero_lt_of_lt hij) (.pure ?_)
  rw [Expr.outline]
  exact (htail.mono (Nat.le_succ i) le_rfl).covered hij hj

/-- Expressions between parentheses cover these, whether a tuple is made of them or not. -/
theorem takes_groupExprs {items : List Expr} (comma : Bool)
    (h : TakesAll row (i + 1) j (items.map Expr.outline)) (hj : j < row.length) :
    (groupExprs items comma ((row.place i).merge (row.place j))).outline.Takes row i (j + 1) := by
  have htuple := h.enclosed hj
  rw [← Expr.outlineList_eq_map] at htuple
  match items, comma with
  | [], _ | [_], true | _ :: _ :: _, _ => exact htuple
  | [item], false => exact h.only.mono (Nat.le_succ i) (Nat.le_succ j)

section

variable {expr : Parser Expr}

/-- If the rule for nested expressions locates them, so does the rule for primary expressions. -/
theorem locates_primary (h : LocatesNode row expr Expr.outline) (fuel : Nat) :
    LocatesNode row (primary expr fuel) Expr.outline := by
  intro i
  apply Locates.peek
  intro k hk
  cases k with
  | int value =>
      have hi := hk TokenKind.Proper.ne_eof
      exact .advance hi (.pure (takes_place hi))
  | str value =>
      have hi := hk TokenKind.Proper.ne_eof
      exact .advance hi (.pure (takes_place hi))
  | ident name => exact locates_path name fuel (hk TokenKind.Proper.ne_eof)
  | keyword word =>
      have hi := hk TokenKind.Proper.ne_eof
      cases word with
      | true_ | false_ => exact .advance hi (.pure (takes_place hi))
      | _ => exact .fail _
  | mark mark =>
      have hi := hk TokenKind.Proper.ne_eof
      cases mark with
      | lparen =>
          refine .advance hi (.bind (.sepList _ h _) fun list j _ _ hlist => .expect fun hj => .pure ?_)
          exact takes_groupExprs _ hlist hj
      | lbracket =>
          refine .advance hi (.bind (.sepList _ h _) fun list j _ _ hlist => .expect fun hj => .pure ?_)
          rw [Expr.outline, Expr.outlineList_eq_map]
          exact hlist.enclosed hj
      | _ => exact .fail _
  | eof => exact .fail _

/-- Calls and indexing start where `base` starts, which was read before. -/
theorem locates_applications (h : LocatesNode row expr Expr.outline) (fuel : Nat) :
    ∀ {m base}, base.outline.Takes row i m → Locates row m (applications expr fuel base) fun j e =>
      e.outline.Takes row i j := by
  induction fuel with
  | zero => exact fun _ => .outOfFuel
  | succ fuel ih =>
      intro m base hbase
      refine .ifEat (fun _ => ?call) (.ifEat (fun _ => ?index) (.pure hbase))
      case call =>
        refine .bind (.sepList _ h _) fun list j _ _ hlist => .expect fun hj => ih ?_
        have hcall := hbase.extended (hlist.mono (Nat.le_succ m) le_rfl) hj
        rwa [Expr.span_outline, ← Expr.outlineList_eq_map] at hcall
      case index =>
        refine .bind (h _) fun index j _ _ hindex => .expect fun hj => ih ?_
        have hbracket := hbase.extended (hindex.all.mono (Nat.le_succ m) le_rfl) hj
        rwa [Expr.span_outline] at hbracket

/-- A call or an indexing covers its base, what is between the marks, and the closing mark. -/
theorem locates_postfixed (h : LocatesNode row expr Expr.outline) (fuel : Nat) :
    LocatesNode row (postfixed expr fuel) Expr.outline :=
  fun i => .bind (locates_primary h fuel i) fun _ _ _ _ hbase => locates_applications h fuel hbase

/-- A prefix operator is covered together with its operand. -/
theorem locates_unary (h : LocatesNode row expr Expr.outline) (fuel : Nat) :
    LocatesNode row (unary expr fuel) Expr.outline := by
  induction fuel with
  | zero => exact fun i => .outOfFuel
  | succ fuel ih =>
      intro i
      apply Locates.peek
      intro k hk
      cases hop : unaryOp? k with
      | none => exact locates_postfixed h _ i
      | some op =>
          have hi := hk fun heof => by
            rw [heof] at hop
            cases hop
          refine .advance hi (.bind (ih _) fun operand j _ _ hoperand => .pure ?_)
          have hnode := (takesAll_nil.2 (Nat.le_succ i)).concluded hoperand
          rwa [Expr.span_outline] at hnode

end

/-- Binary operators start where the operand before them starts. -/
theorem locates_operators {rhs : Nat → Parser Expr}
    (h : ∀ least, LocatesNode row (rhs least) Expr.outline) (least fuel : Nat) :
    ∀ {m lhs}, lhs.outline.Takes row i m → Locates row m (operators rhs least fuel lhs) fun j e =>
      e.outline.Takes row i j := by
  induction fuel with
  | zero => exact fun _ => .outOfFuel
  | succ fuel ih =>
      intro m lhs hlhs
      apply Locates.peek
      intro k hk
      cases hop : binaryOp? k with
      | none => exact .pure hlhs
      | some op =>
          dsimp only
          split
          case isTrue => exact .pure hlhs
          case isFalse =>
            have hm := hk fun heof => by
              rw [heof] at hop
              cases hop
            refine .advance hm (.bind (h _ _) fun operand j _ _ hoperand => ih ?_)
            have hnode := hlhs.joined (hoperand.mono (Nat.le_succ m) le_rfl)
            rwa [Expr.span_outline, Expr.span_outline] at hnode

/-- Binary operators are covered together with the operands on both sides, at every level. -/
theorem locates_exprAt (fuel : Nat) : ∀ least, LocatesNode row (exprAt fuel least) Expr.outline := by
  induction fuel with
  | zero => exact fun _ _ => .outOfFuel
  | succ fuel ih =>
      intro least i
      refine .bind (locates_unary (ih 1) _ i) fun lhs m _ _ hlhs => ?_
      exact locates_operators ih least _ hlhs

/-- An expression covers some of the tokens that it is read from. -/
theorem locates_expr (fuel : Nat) : LocatesNode row (expr fuel) Expr.outline := locates_exprAt fuel 1

/-! ### Statements and blocks -/

section

variable {block : Parser Block}

/-- The conditions and blocks of a choice cover tokens one after the other. -/
theorem locates_branches (h : LocatesNode row block Block.outline) (fuel : Nat) :
    ∀ {i}, Locates row i (branches block fuel) fun j bs => TakesAll row i j (Branch.outlineList bs) := by
  induction fuel with
  | zero => exact .outOfFuel
  | succ fuel ih =>
      intro i
      refine .bind (locates_expr _ i) fun cond m _ _ hcond => .bind (h m) fun body j _ _ hbody => ?_
      refine .ifEat (fun _ => .bind ih fun bs l _ _ hbs => .pure ?_) (.pure (hcond.cons hbody.all))
      exact hcond.cons (hbody.cons (hbs.mono (Nat.le_succ j) le_rfl))

/-- An optional block covers tokens after its word. -/
theorem locates_blockAfter (word : Keyword) (h : LocatesNode row block Block.outline) :
    Locates row i (blockAfter word block) fun j b => TakesAll row i j (Block.outlineOption b) := by
  refine .ifEat (fun _ => ?_) (.pure (takesAll_nil.2 le_rfl))
  exact .bind (h _) fun b j _ _ hb => .pure (hb.all.mono (Nat.le_succ i) le_rfl)

/-- Whatever its place will be, the parts of the statement cover tokens from number `i` on and before number
`j`, and there are such tokens. -/
def BuildsOver (row : TokenRow) (i j : Nat) (build : Span → Stmt) : Prop :=
  i < j ∧ ∃ parts, (∀ s, (build s).outline = .node s parts) ∧ TakesAll row i j parts

/-- What a statement is built of covers tokens, whatever place the statement will be given. -/
theorem locates_stmtBody (h : LocatesNode row block Block.outline) (fuel : Nat) :
    Locates row i (stmtBody block fuel) (BuildsOver row i) := by
  apply Locates.peek
  intro k hk
  -- a token that begins no other statement is the first one of an expression
  have heval : Locates row i (do
      let value ← expr fuel
      let _ ← expect (.mark .semicolon)
      return Stmt.eval value) (BuildsOver row i) := by
    refine .bind (locates_expr _ _) fun value j hij _ hvalue => .expect fun _ => .pure ⟨by omega, ?_⟩
    exact ⟨_, fun s => by rw [Stmt.outline], hvalue.all.mono le_rfl (Nat.le_succ j)⟩
  cases k with
  | keyword word =>
      have hi := hk TokenKind.Proper.ne_eof
      cases word with
      | let_ =>
          refine .advance hi (.bind .eaten fun mutable a ha _ _ => ?_)
          refine .bind (locates_pattern _ _) fun pat b hab _ hpat => .expect fun _ => ?_
          refine .bind (locates_expr _ _) fun init c hbc _ hinit => .expect fun _ => .pure ⟨by omega, ?_⟩
          refine ⟨_, fun s => by rw [Stmt.outline], ?_⟩
          exact (hpat.mono (by omega) (Nat.le_succ b)).cons (hinit.all.mono le_rfl (Nat.le_succ c))
      | set =>
          refine .advance hi (.bind (locates_expr _ _) fun target a ha _ htarget => .expect fun _ => ?_)
          refine .bind (locates_expr _ _) fun value b hab _ hvalue => .expect fun _ => .pure ⟨by omega, ?_⟩
          refine ⟨_, fun s => by rw [Stmt.outline], ?_⟩
          exact (htarget.mono (Nat.le_succ i) (Nat.le_succ a)).cons (hvalue.all.mono le_rfl (Nat.le_succ b))
      | return_ =>
          refine .advance hi (.ifEat (fun _ => .pure ⟨by omega, ?_⟩) ?_)
          · exact ⟨[], fun s => by rw [Stmt.outline]; rfl, takesAll_nil.2 (by omega)⟩
          · refine .bind (locates_expr _ _) fun value a ha _ hvalue => .expect fun _ =>
              .pure ⟨by omega, ?_⟩
            refine ⟨_, fun s => by rw [Stmt.outline], ?_⟩
            exact hvalue.all.mono (Nat.le_succ i) (Nat.le_succ a)
      | if_ =>
          refine .advance hi (.bind (locates_branches h _) fun bs a ha _ hbs => ?_)
          refine .bind (locates_blockAfter _ h) fun otherwise b hab _ hotherwise => .pure ⟨by omega, ?_⟩
          refine ⟨_, fun s => by rw [Stmt.outline], ?_⟩
          exact (hbs.append hotherwise).mono (Nat.le_succ i) le_rfl
      | while_ =>
          refine .advance hi (.bind (locates_expr _ _) fun cond a ha _ hcond => ?_)
          refine .bind (h _) fun body b hab _ hbody => .pure ⟨by omega, ?_⟩
          refine ⟨_, fun s => by rw [Stmt.outline], ?_⟩
          exact (hcond.mono (Nat.le_succ i) le_rfl).cons hbody.all
      | for_ =>
          refine .advance hi (.bind (locates_pattern _ _) fun pat a ha _ hpat => .expect fun _ => ?_)
          refine .bind (locates_expr _ _) fun source b hab _ hsource => ?_
          refine .bind (h _) fun body c hbc _ hbody => .pure ⟨by omega, ?_⟩
          refine ⟨_, fun s => by rw [Stmt.outline], ?_⟩
          exact (hpat.mono (Nat.le_succ i) (Nat.le_succ a)).cons (hsource.cons hbody.all)
      | repeat_ =>
          refine .advance hi (.bind (h _) fun body a ha _ hbody => .expect fun _ => ?_)
          refine .bind (locates_expr _ _) fun cond b hab _ hcond => ?_
          refine .bind (locates_blockAfter _ h) fun fixup c hbc _ hfixup => .expect fun _ =>
            .pure ⟨by omega, ?_⟩
          refine ⟨_, fun s => by rw [Stmt.outline], ?_⟩
          exact (hbody.mono (Nat.le_succ i) (Nat.le_succ a)).cons
            (hcond.cons (hfixup.mono le_rfl (Nat.le_succ c)))
      | _ => exact heval
  | mark mark => cases mark with
    | lbrace =>
        refine .bind (h _) fun body a ha _ hbody => .pure ⟨hbody.lt, ?_⟩
        exact ⟨_, fun s => by rw [Stmt.outline], hbody.all⟩
    | _ => exact heval
  | _ => exact heval

/-- A statement covers some of the tokens that it is read from. -/
theorem locates_stmt (h : LocatesNode row block Block.outline) (fuel : Nat) :
    LocatesNode row (stmt block fuel) Stmt.outline := by
  intro i
  apply Locates.current
  intro first hfirst
  refine .bind (locates_stmtBody h fuel) fun build j _ hj hbuild => ?_
  obtain ⟨hij, parts, houtline, hparts⟩ := hbuild
  refine .lastSpan (Nat.zero_lt_of_lt hij) (.pure ?_)
  rw [hfirst (hij.trans_le hj), houtline]
  exact hparts.covered hij hj

end

/-- Statements cover tokens one after the other, and a token is left after them. -/
theorem locates_stmts {stmt : Parser Stmt} (h : LocatesNode row stmt Stmt.outline) (fuel : Nat) :
    ∀ {i}, Locates row i (stmts stmt fuel) fun j ts =>
      j < row.length ∧ TakesAll row i j (Stmt.outlineList ts) := by
  induction fuel with
  | zero => exact .outOfFuel
  | succ fuel ih =>
      intro i
      apply Locates.peek
      intro k hk
      have hmore : Locates row i (do return (← stmt) :: (← stmts stmt fuel)) fun j ts =>
          j < row.length ∧ TakesAll row i j (Stmt.outlineList ts) :=
        .bind (h i) fun t m _ _ ht => .bind ih fun ts j _ _ hts => .pure ⟨hts.1, ht.cons hts.2⟩
      -- the closing brace is left, so that there is a token
      cases k with
      | mark mark => cases mark with
        | rbrace => exact .pure ⟨hk TokenKind.Proper.ne_eof, takesAll_nil.2 le_rfl⟩
        | _ => exact hmore
      | eof => exact .fail _
      | _ => exact hmore

/-- A block covers some of the tokens that it is read from. -/
theorem locates_block (fuel : Nat) : LocatesNode row (block fuel) Block.outline := by
  induction fuel with
  | zero => exact fun i => .outOfFuel
  | succ fuel ih =>
      intro i
      apply Locates.expect
      intro _
      refine .bind (locates_stmts (locates_stmt ih _) _) fun body j _ _ hbody => ?_
      exact .advance hbody.1 (.pure (hbody.2.enclosed hbody.1))

/-! ### Callables and programs -/

/-- A callable covers some of the tokens that it is read from. -/
theorem locates_callable (fuel : Nat) : LocatesNode row (callable fuel) Callable.outline := by
  intro i
  refine .expect fun _ => .identifier fun name _ => .expect fun _ => ?_
  refine .bind (.sepList _ (locates_parameter fuel) _) fun list j _ _ hlist => .expect fun hj => ?_
  refine .bind (locates_block fuel _) fun body m _ _ hbody => .pure ?_
  have hparams := (takes_groupParams hlist hj).mono (show i + 1 ≤ i + 1 + 1 by omega) le_rfl
  have hnode := (hparams.mono (Nat.le_succ i) le_rfl).all.concluded hbody
  rwa [Block.span_outline] at hnode

/-- The callables of a program cover tokens one after the other. -/
theorem locates_callables {p : Parser Callable} (h : LocatesNode row p Callable.outline) (fuel : Nat) :
    ∀ {i}, Locates row i (callables p fuel) fun j cs => TakesAll row i j (cs.map Callable.outline) := by
  induction fuel with
  | zero => exact .outOfFuel
  | succ fuel ih =>
      intro i
      apply Locates.at?
      · intro _
        rw [if_pos rfl]
        exact .pure (takesAll_nil.2 le_rfl)
      · rw [if_neg Bool.false_ne_true]
        exact .bind (h i) fun c m _ _ hc => .bind ih fun cs j _ _ hcs => .pure (hc.cons hcs)

/-- The nodes of a program cover tokens of the whole text. -/
theorem locates_program (fuel : Nat) : Locates row i (program fuel) fun j p =>
    TakesAll row i j p.outlines :=
  .bind (locates_callables (locates_callable fuel) fuel) fun _ _ _ _ hcs => .pure hcs

/-- The only callable of a text covers some of its tokens. -/
theorem locates_onlyCallable (fuel : Nat) : LocatesNode row (onlyCallable fuel) Callable.outline :=
  fun i => .bind (locates_callable fuel i) fun _ _ _ _ hc => .finished (.pure hc)

/-- The only expression of a text covers some of its tokens. -/
theorem locates_onlyExpr (fuel : Nat) : LocatesNode row (onlyExpr fuel) Expr.outline :=
  fun i => .bind (locates_expr fuel i) fun _ _ _ _ he => .finished (.pure he)

end Grammar

/-! ### Parsed texts -/

/-- The tokens of a text whose size fits into spans, without its end, are a row of tokens. -/
theorem TokenRow.exists_of_tokenize {source : String} {body : List Token} {last : Token}
    (hsize : source.utf8ByteSize < UInt32.size) (h : tokenize source = .ok (body ++ [last])) :
    last.kind = .eof ∧ ∃ row : TokenRow, row.tokens = body := by
  obtain ⟨segs, -, hlength, hmunched, htokens⟩ := exists_munched_of_tokenize h
  obtain ⟨rfl, rfl⟩ := List.append_singleton_inj.1 htokens
  have hmax : 0 + byteLength (Segment.textOf segs) ≤ Span.maxOffset := by
    rw [Nat.zero_add, hlength]
    exact Nat.le_pred_of_lt hsize
  have hstands := fun t ht => hmunched.stands (show 0 = byteLength [] from rfl) hmax (t := t) ht
  refine ⟨rfl, ⟨_, fun t ht => (hstands t ht).1, fun t ht => ?_, Segment.pairwise_tokensAt hmax⟩, rfl⟩
  obtain ⟨-, before, w, after, -, hspan, hw, -⟩ := hstands t ht
  rw [hspan]
  exact Nat.lt_add_of_pos_right (byteLength_pos hw)

/-- What a rule makes of a text is located among its tokens. -/
theorem Parser.Locates.of_onText {α : Type} {p : Nat → Parser α} {Q : Nat → α → Prop} {row : TokenRow}
    {source : String} {last : Token} {a : α} (hp : ∀ fuel, Locates row 0 (p fuel) Q)
    (htokens : tokenize source = .ok (row.tokens ++ [last])) (hlast : last.kind = .eof)
    (h : onText p source = .ok a) : ∃ j, Q j a := by
  obtain ⟨tokens, htokens', h⟩ := onText_eq_ok_iff.1 h
  obtain rfl := Except.ok.inj (htokens.symm.trans htokens')
  obtain ⟨c, hrun⟩ := run_of_onTokens h
  obtain ⟨j, -, -, hQ⟩ := hp _ _ a c (Cursor.standsAt_start hlast) hrun
  exact ⟨j, hQ⟩

/-- **Spans are well nested.**  Let the size of a text fit into spans, and let `body` be its tokens without its
end. What is parsed of the text as a program, a callable or an expression is well nested over `body`: each node
covers text from the start of a token to the end of one, and the nodes below it stand in it one after the other;
and so do the callables of a program in the text. -/
theorem wellNested_of_parse {source : String} {body : List Token} {last : Token}
    (hsize : source.utf8ByteSize < UInt32.size) (htokens : tokenize source = .ok (body ++ [last])) :
    last.kind = .eof ∧
    (∀ p, Program.parse source = .ok p → (∀ o ∈ p.outlines, o.WellNested body) ∧
      p.outlines.Pairwise fun o later => o.span.Before later.span) ∧
    (∀ c, Callable.parse source = .ok c → c.outline.WellNested body) ∧
    ∀ e, Expr.parse source = .ok e → e.outline.WellNested body := by
  obtain ⟨hlast, row, rfl⟩ := TokenRow.exists_of_tokenize hsize htokens
  refine ⟨hlast, fun p hp => ?program, fun c hc => ?callable, fun e he => ?expr⟩
  case program =>
    obtain ⟨j, h⟩ := Parser.Locates.of_onText (fun fuel => Grammar.locates_program fuel) htokens hlast hp
    exact ⟨Outline.wellNested_of_takesAll h, h.pairwise⟩
  case callable =>
    obtain ⟨j, h⟩ := Parser.Locates.of_onText (fun fuel => Grammar.locates_onlyCallable fuel 0) htokens
      hlast hc
    exact Outline.wellNested_of_takes h
  case expr =>
    obtain ⟨j, h⟩ := Parser.Locates.of_onText (fun fuel => Grammar.locates_onlyExpr fuel 0) htokens hlast he
    exact Outline.wellNested_of_takes h

/-- Parentheses that only group belong to no node. -/
theorem wellNested_of_parse_grouped :
    (∃ body last c, tokenize "fn f((a)) \x7b\x7d" = .ok (body ++ [last]) ∧
      Program.parse "fn f((a)) \x7b\x7d" = .ok ⟨[c]⟩ ∧ Callable.parse "fn f((a)) \x7b\x7d" = .ok c ∧
      c.outline = .node ⟨0, 12⟩ [.node ⟨6, 7⟩ [.node ⟨6, 7⟩ []], .node ⟨10, 12⟩ []] ∧
      (∀ o ∈ Program.outlines ⟨[c]⟩, o.WellNested body) ∧ c.outline.WellNested body) ∧
    ∃ body last e, tokenize "(a)+(b)" = .ok (body ++ [last]) ∧ Expr.parse "(a)+(b)" = .ok e ∧
      e.outline = .node ⟨1, 6⟩ [.node ⟨1, 2⟩ [], .node ⟨5, 6⟩ []] ∧ e.outline.WellNested body := by
  have htokens : tokenize "fn f((a)) \x7b\x7d" = .ok ([⟨.keyword .fn, ⟨0, 2⟩⟩, ⟨.ident "f", ⟨3, 4⟩⟩,
      ⟨.mark .lparen, ⟨4, 5⟩⟩, ⟨.mark .lparen, ⟨5, 6⟩⟩, ⟨.ident "a", ⟨6, 7⟩⟩, ⟨.mark .rparen, ⟨7, 8⟩⟩,
      ⟨.mark .rparen, ⟨8, 9⟩⟩, ⟨.mark .lbrace, ⟨10, 11⟩⟩, ⟨.mark .rbrace, ⟨11, 12⟩⟩] ++
      [⟨.eof, ⟨12, 12⟩⟩]) := rfl
  have htokens' : tokenize "(a)+(b)" = .ok ([⟨.mark .lparen, ⟨0, 1⟩⟩, ⟨.ident "a", ⟨1, 2⟩⟩,
      ⟨.mark .rparen, ⟨2, 3⟩⟩, ⟨.mark .plus, ⟨3, 4⟩⟩, ⟨.mark .lparen, ⟨4, 5⟩⟩, ⟨.ident "b", ⟨5, 6⟩⟩,
      ⟨.mark .rparen, ⟨6, 7⟩⟩] ++ [⟨.eof, ⟨7, 7⟩⟩]) := rfl
  have hp : Program.parse "fn f((a)) \x7b\x7d" =
      .ok ⟨[⟨"f", .binder ⟨"a", none, ⟨6, 7⟩⟩, ⟨[], ⟨10, 12⟩⟩, ⟨0, 12⟩⟩]⟩ := by decide +kernel
  have hc : Callable.parse "fn f((a)) \x7b\x7d" =
      .ok ⟨"f", .binder ⟨"a", none, ⟨6, 7⟩⟩, ⟨[], ⟨10, 12⟩⟩, ⟨0, 12⟩⟩ := by decide +kernel
  have he : Expr.parse "(a)+(b)" = .ok (.binary .add (.ref (.unqualified "a") none ⟨1, 2⟩)
      (.ref (.unqualified "b") none ⟨5, 6⟩) ⟨1, 6⟩) := by decide +kernel
  obtain ⟨-, hprogram, hcallable, -⟩ := wellNested_of_parse (by decide) htokens
  obtain ⟨-, -, -, hexpr⟩ := wellNested_of_parse (by decide) htokens'
  exact ⟨⟨_, _, _, htokens, hp, hc, rfl, (hprogram _ hp).1, hcallable _ hc⟩, _, _, _, htokens', he, rfl,
    hexpr _ he⟩

end Freshen
