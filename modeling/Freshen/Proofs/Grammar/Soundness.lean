import Mathlib
import Freshen.Grammar.Program
import Freshen.Proofs.Grammar.Reads

/-!
# What is parsed is derived

Each rule of the parser reads tokens that derive the tree it answers with.

**Key results.** `sound_type`, `sound_pattern`, `sound_parameter`, `sound_exprAt`, `sound_block`,
`sound_callable`, `sound_program`: the rules are sound for the relations of the same name.
-/

namespace Freshen.Grammar

open Freshen.Parser

/-! ### Types and binding sites -/

/-- Type arguments are read up to the mark that closes them. -/
theorem sound_typeArgs {type : Parser TypeExpr} (htype : Sound type IsType) (fuel : Nat) :
    Sound (typeArgs type fuel)
      fun ks args => ∃ inner comma, ks = inner ++ [.mark .gt] ∧ SepBy IsType inner args comma := by
  refine (Reads.sepList _ htype fuel).bind fun ks list hlist => ?_
  exact .expect nofun fun _ => .pure ⟨ks, list.2, rfl, hlist⟩

/-- What is read as a type is one. -/
theorem sound_type : ∀ fuel, Sound (type fuel) IsType
  | 0 => .outOfFuel
  | fuel + 1 => by
      have ih := sound_type fuel
      refine .peek fun k => ?_
      split
      next name =>
        refine .advance nofun fun start => .ifEat nofun ?_ (.pure (.named name start))
        refine (sound_typeArgs ih _).bind fun ks args hargs => .lastSpan fun finish => .pure ?_
        obtain ⟨inner, comma, rfl, hargs⟩ := hargs
        rw [List.append_nil]
        exact .applied name _ hargs
      next =>
        refine .advance nofun fun opening => (Reads.sepList _ ih _).bind fun ks list hlist => ?_
        exact .expect nofun fun closing => .pure (.tuple _ hlist)
      next =>
        refine .advance nofun fun opening => ih.bind fun ks elem helem => ?_
        exact .expect nofun fun closing => .pure (.array _ helem)
      next => exact .fail _

/-- What is read as the type of a binding site is one, or there is none. -/
theorem sound_typeOption (fuel : Nat) : Sound ( annotation fuel) IsAnnotation := by
  refine .ifEat nofun ((sound_type fuel).bind fun ks type htype => .pure ?_) (.pure .none)
  rw [List.append_nil]
  exact .some htype

/-- After its name, which is next, a binder is read. -/
theorem reads_binder (name : Name) (fuel : Nat) :
    Reads [.ident name] (binder name fuel) IsBinder [] := by
  refine .advance nofun fun start => (sound_typeOption fuel).bind fun ks type htype => ?_
  cases type with
  | some type =>
      refine .pure ?_
      rw [List.append_nil]
      exact .mk name _ htype
  | none =>
      refine .pure ?_
      rw [List.append_nil]
      exact .mk name _ htype

/-- Patterns between parentheses are a pattern: the only one, or a tuple. -/
theorem IsPattern.group {ks : List TokenKind} {items : List Pattern} {comma : Bool}
    (h : SepBy IsPattern ks items comma) (span : Span) :
    IsPattern (.mark .lparen :: (ks ++ [.mark .rparen])) (groupPatterns items comma span) := by
  unfold groupPatterns
  split
  next => cases h with
    | last h => exact .paren h
  next hne =>
    refine .tuple span h fun hone => ?_
    obtain ⟨item, rfl⟩ := List.length_eq_one_iff.1 hone
    cases comma with
    | true => rfl
    | false => exact absurd rfl (hne item rfl)

/-- What is read as a pattern is one. -/
theorem sound_pattern : ∀ fuel, Sound (pattern fuel) IsPattern
  | 0 => .outOfFuel
  | fuel + 1 => by
      have ih := sound_pattern fuel
      refine .peek fun k => ?_
      split
      next => exact .advance nofun fun span => .pure (.discard span)
      next =>
        refine .advance nofun fun opening => (Reads.sepList _ ih _).bind fun ks list hlist => ?_
        exact .expect nofun fun closing => .pure (.group hlist _)
      next name =>
        refine (reads_binder name _).bind fun ks b hb => .pure ?_
        rw [List.append_nil]
        exact .binder hb
      next => exact .fail _

/-- Parameters between parentheses are a parameter: the only one, or a tuple. -/
theorem IsParam.group {ks : List TokenKind} {items : List Params} {comma : Bool}
    (h : SepBy IsParam ks items comma) (span : Span) :
    IsParam (.mark .lparen :: (ks ++ [.mark .rparen])) (groupParams items span) := by
  unfold groupParams
  split
  next => exact .paren h
  next hne => exact .tuple span h fun hone =>
    (List.length_eq_one_iff.1 hone).elim fun item hitem => hne item hitem

/-- What is read as a parameter is one. -/
theorem sound_parameter : ∀ fuel, Sound (parameter fuel) IsParam
  | 0 => .outOfFuel
  | fuel + 1 => by
      have ih := sound_parameter fuel
      refine .peek fun k => ?_
      split
      next => exact .advance nofun fun span => .pure (.unnamed span)
      next =>
        refine .advance nofun fun opening => (Reads.sepList _ ih _).bind fun ks list hlist => ?_
        exact .expect nofun fun closing => .pure (.group hlist _)
      next name =>
        refine (reads_binder name _).bind fun ks b hb => .pure ?_
        rw [List.append_nil]
        exact .binder hb
      next => exact .fail _

/-! ### Expressions -/

/-- What is read after the first name of a path goes on with the path. -/
theorem sound_segments : ∀ fuel,
    Sound (segments fuel) fun ks found => IsPathTail ks found.1 found.2
  | 0 => .outOfFuel
  | fuel + 1 => by
      refine .ifAt (.peekNext fun k' => ?_) (.pure .done)
      split
      next =>
        refine .advance nofun fun _ => .forget (.identifier fun name _ => ?_)
        refine (sound_segments fuel).bind fun ks found hfound => .pure ?_
        rw [List.append_nil]
        exact .segment name hfound
      next =>
        refine .advance nofun fun _ => .advance nofun fun _ => ?_
        refine (sound_typeArgs (sound_type fuel) _).bind fun ks args hargs => .pure ?_
        obtain ⟨inner, comma, rfl, hargs⟩ := hargs
        rw [List.append_nil]
        exact .args hargs
      next => exact .advance nofun fun _ => .fail _

/-- Expressions between parentheses are a primary one: the unit, the only one, or a tuple. -/
theorem IsExpr.group {ks : List TokenKind} {items : List Expr} {comma : Bool}
    (h : SepBy (IsExpr 1) ks items comma) (span : Span) :
    IsExpr Precedence.atom (.mark .lparen :: (ks ++ [.mark .rparen]))
      (groupExprs items comma span) := by
  unfold groupExprs
  split
  next => cases h with
    | nil => exact .unit span
  next => cases h with
    | last h => exact .paren h
  next hnil hone =>
    refine .tuple span h hnil fun hlength => ?_
    obtain ⟨item, rfl⟩ := List.length_eq_one_iff.1 hlength
    cases comma with
    | true => rfl
    | false => exact absurd rfl (hone item rfl)

section Exprs

variable {expr : Parser Expr}

/-- What is read as a primary expression is one, if nested expressions are read as such. -/
theorem sound_primary (hexpr : Sound expr (IsExpr 1)) (fuel : Nat) :
    Sound (primary expr fuel) (IsExpr Precedence.atom) := by
  refine .peek fun k => ?_
  cases k with
  | int value => exact .advance nofun fun span => .pure (.int value span)
  | str value => exact .advance nofun fun span => .pure (.str value span)
  | keyword word => cases word with
    | true_ => exact .advance nofun fun span => .pure (.bool true span)
    | false_ => exact .advance nofun fun span => .pure (.bool false span)
    | _ => exact .fail _
  | mark mark => cases mark with
    | lparen =>
        refine .advance nofun fun opening => (Reads.sepList _ hexpr _).bind fun ks list hlist => ?_
        exact .expect nofun fun closing => .pure (.group hlist _)
    | lbracket =>
        refine .advance nofun fun opening => (Reads.sepList _ hexpr _).bind fun ks list hlist => ?_
        exact .expect nofun fun closing => .pure (.array _ hlist)
    | _ => exact .fail _
  | ident name =>
      refine .advance nofun fun start => (sound_segments fuel).bind fun ks found hfound => ?_
      refine .lastSpan fun finish => .pure ?_
      rw [List.append_nil]
      exact .path name _ hfound
  | eof => exact .fail _

/-- Calls and indexing after `base` are read. -/
theorem reads_applications (hexpr : Sound expr (IsExpr 1)) : ∀ fuel {ks : List TokenKind} {base : Expr},
    IsExpr Precedence.postfixed ks base →
    Sound (applications expr fuel base) fun ks' e => IsExpr Precedence.postfixed (ks ++ ks') e
  | 0, _, _, _ => .outOfFuel
  | fuel + 1, ks, base, hbase => by
      refine .ifEat nofun ?_ (.ifEat nofun ?_ (.pure ?_))
      · refine (Reads.sepList _ hexpr _).bind fun ks' list hlist => .expect nofun fun closing => ?_
        have hcall := IsExpr.call (base.span.merge closing) hbase hlist
        exact (reads_applications hexpr fuel hcall).imp fun _ _ he => by simpa using he
      · refine hexpr.bind fun ks' index hindex => .expect nofun fun closing => ?_
        have hcall := IsExpr.index (base.span.merge closing) hbase hindex
        exact (reads_applications hexpr fuel hcall).imp fun _ _ he => by simpa using he
      · rwa [List.append_nil]

/-- What is read with calls and indexing is an expression of that level. -/
theorem sound_postfixed (hexpr : Sound expr (IsExpr 1)) (fuel : Nat) :
    Sound (postfixed expr fuel) (IsExpr Precedence.postfixed) :=
  (sound_primary hexpr fuel).bind fun _ _ hbase => reads_applications hexpr fuel (.tighter hbase)

/-- A token that stands for a prefix operator is the token of this operator. -/
theorem unaryOp?_eq_some {k : TokenKind} {op : UnaryOp} (h : unaryOp? k = some op) :
    k = unaryToken op := by
  unfold unaryOp? at h
  split at h
  · obtain rfl := Option.some.inj h
    rfl
  · obtain rfl := Option.some.inj h
    rfl
  · exact absurd h nofun

/-- What is read as an operand is an expression of that level. -/
theorem sound_unary (hexpr : Sound expr (IsExpr 1)) :
    ∀ fuel, Sound (unary expr fuel) (IsExpr Precedence.unary)
  | 0 => .outOfFuel
  | fuel + 1 => by
      refine .peek fun k => ?_
      split
      next op hop =>
        rw [unaryOp?_eq_some hop]
        have hne : unaryToken op ≠ .eof := by cases op <;> nofun
        refine .advance hne fun start => (sound_unary hexpr fuel).bind fun ks operand hoperand => ?_
        refine .pure ?_
        rw [List.append_nil]
        exact .unary op _ hoperand
      next => exact .forget ((sound_postfixed hexpr _).imp fun _ _ he => .tighter he)

end Exprs

/-- If the next token is a binary operator, then one that binds less tight than `least`. -/
def OperatorBelow (least : Nat) (c : Cursor) : Prop :=
  ∀ op, binaryOp? c.current.kind = some op → op.precedence < least

/-- The rule for expressions at a level reads an expression of that level, and no operator that
belongs to it stands after it. -/
def ReadsLevel (p : Parser Expr) (level : Nat) : Prop :=
  ∀ c e c', p.run c = .ok (e, c') →
    (∃ ks, c.kinds = ks ++ c'.kinds ∧ .eof ∉ ks ∧ IsExpr level ks e) ∧ OperatorBelow level c'

/-- The operators after `lhs` are read.  No operator that binds tighter than `lhs` stands after it:
that is why `lhs` may be its left operand. -/
theorem reads_operators {rhs : Nat → Parser Expr} {least : Nat}
    (hrhs : ∀ level ≤ Precedence.unary, ReadsLevel (rhs level) level) :
    ∀ fuel {level : Nat} {ks : List TokenKind} {lhs e : Expr} {c c' : Cursor},
      IsExpr level ks lhs → least ≤ level → OperatorBelow (level + 1) c →
      (operators rhs least fuel lhs).run c = .ok (e, c') →
      (∃ ks', c.kinds = ks' ++ c'.kinds ∧ .eof ∉ ks' ∧ IsExpr least (ks ++ ks') e) ∧
        OperatorBelow least c'
  | 0, _, _, _, _, _, _, _, _, _, hrun => absurd hrun nofun
  | fuel + 1, level, ks, lhs, e, c, c', hlhs, hleast, hc, hrun => by
      rw [operators] at hrun
      obtain ⟨k, c₀, hpeek, hrun⟩ := run_bind_eq_ok hrun
      obtain ⟨rfl, rfl⟩ := Prod.mk.inj (Except.ok.inj hpeek)
      cases hop : binaryOp? c.current.kind with
      | none =>
          rw [hop] at hrun
          obtain ⟨rfl, rfl⟩ := Prod.mk.inj (Except.ok.inj hrun)
          refine ⟨⟨[], rfl, List.not_mem_nil, ?_⟩, fun op hop' => by cases hop.symm.trans hop'⟩
          rw [List.append_nil]
          exact hlhs.mono hleast
      | some op =>
          rw [hop] at hrun
          dsimp only at hrun
          split at hrun
          case isTrue hlt =>
            obtain ⟨rfl, rfl⟩ := Prod.mk.inj (Except.ok.inj hrun)
            refine ⟨⟨[], rfl, List.not_mem_nil, ?_⟩, fun op' hop' => ?_⟩
            · rw [List.append_nil]
              exact hlhs.mono hleast
            · rwa [← Option.some.inj (hop.symm.trans hop')]
          case isFalse hge =>
            have hk : c.current.kind ≠ .eof := by
              intro heof
              rw [heof] at hop
              cases hop
            have hnext := (Cursor.kinds_next c.kind_current hk).1
            obtain ⟨start, c₀, hadvance, hrun⟩ := run_bind_eq_ok hrun
            obtain ⟨-, rfl⟩ := Prod.mk.inj (Except.ok.inj hadvance)
            obtain ⟨operand, c₁, hoperand, hrest⟩ := run_bind_eq_ok hrun
            obtain ⟨⟨ks₁, hks₁, heof₁, hderived⟩, hbelow⟩ :=
              hrhs _ op.precedence_lt_unary _ _ _ hoperand
            -- the operator may take `lhs` as its left operand; with the right one it is the next `lhs`
            have hlevel : op.precedence ≤ level := Nat.lt_succ_iff.1 (hc op hop)
            have hbinary := IsExpr.binary c.current.kind (lhs.span.merge operand.span)
              (mem_operatorsAt.2 ⟨hop, rfl⟩) (hlhs.mono hlevel) hderived
            obtain ⟨⟨ks₂, hks₂, heof₂, he⟩, hlast⟩ :=
              reads_operators hrhs fuel hbinary (Nat.not_lt.1 hge) hbelow hrest
            refine ⟨⟨c.current.kind :: (ks₁ ++ ks₂), ?_, ?_, by simpa using he⟩, hlast⟩
            · rw [hnext, hks₁, hks₂, List.cons_append, List.append_assoc]
            · simp [hk.symm, heof₁, heof₂]

/-- The rule for expressions reads expressions of the level that it is given. -/
theorem readsLevel_exprAt : ∀ fuel, ∀ level ≤ Precedence.unary, ReadsLevel (exprAt fuel level) level
  | 0, _, _ => fun _ _ _ hrun => absurd hrun nofun
  | fuel + 1, level, hlevel => by
      have ih := readsLevel_exprAt fuel
      intro c e c' hrun
      obtain ⟨lhs, c₁, hlhs, hrest⟩ := run_bind_eq_ok hrun
      have hinner : Sound (exprAt fuel 1) (IsExpr 1) := fun c e c' _ hrun => by
        obtain ⟨⟨ks, hks, heof, he⟩, -⟩ := ih 1 (by decide) c e c' hrun
        exact ⟨ks, hks, heof, he, List.nil_prefix⟩
      obtain ⟨ks, hks, heof, hunary, -⟩ := sound_unary hinner _ c lhs c₁ List.nil_prefix hlhs
      have hbelow : OperatorBelow (Precedence.unary + 1) c₁ := fun op _ =>
        op.precedence_lt_unary.trans (Nat.lt_succ_self _)
      obtain ⟨⟨ks', hks', heof', he⟩, hlast⟩ := reads_operators ih _ hunary hlevel hbelow hrest
      exact ⟨⟨ks ++ ks', by rw [hks, hks', List.append_assoc], by simp [heof, heof'], he⟩, hlast⟩

/-- What is read at a level is an expression of this level. -/
theorem sound_exprAt (fuel : Nat) {level : Nat} (hlevel : level ≤ Precedence.unary) :
    Sound (exprAt fuel level) (IsExpr level) := fun c e c' _ hrun => by
  obtain ⟨⟨ks, hks, heof, he⟩, -⟩ := readsLevel_exprAt fuel level hlevel c e c' hrun
  exact ⟨ks, hks, heof, he, List.nil_prefix⟩

/-- What is read as an expression is one. -/
theorem sound_expr (fuel : Nat) : Sound (expr fuel) (IsExpr 1) := sound_exprAt fuel (by decide)

/-! ### Statements -/

section Stmts

variable {block : Parser Block}

/-- What is read as branches of a choice are branches. -/
theorem sound_branches (hblock : Sound block IsBlock) :
    ∀ fuel, Sound (branches block fuel) IsBranches
  | 0 => .outOfFuel
  | fuel + 1 => by
      refine (sound_expr _).bind fun cks cond hcond => hblock.bind fun bks body hbody => ?_
      refine .ifEat nofun ?_ (.pure ?_)
      · refine (sound_branches hblock fuel).bind fun ks bs hbs => .pure ?_
        rw [List.append_nil]
        exact .cons hcond hbody hbs
      · rw [List.append_nil]
        exact .last hcond hbody

/-- What is read as a block after a word is one, or the word does not come next. -/
theorem sound_blockAfter (word : Keyword) (hblock : Sound block IsBlock) :
    Sound (blockAfter word block) (IsBlockAfter word) := by
  refine .ifEat nofun (hblock.bind fun ks b hb => .pure ?_) (.pure .none)
  rw [List.append_nil]
  exact .some hb

/-- Whatever place it is given, what is read as a statement is one. -/
theorem sound_stmtBody (hblock : Sound block IsBlock) (fuel : Nat) :
    Sound (stmtBody block fuel) fun ks build => ∀ span, IsStmt ks (build span) := by
  have hexpr := sound_expr fuel
  have hdefault : Sound (do
        let value ← expr fuel
        let _ ← expect (.mark .semicolon)
        return Stmt.eval value) fun ks build => ∀ span, IsStmt ks (build span) :=
    hexpr.bind fun ks value hvalue => .expect nofun fun _ => .pure fun span => .eval span hvalue
  refine .peek fun k => ?_
  cases k with
  | keyword word => cases word with
    | let_ =>
        refine .advance nofun fun _ => .eat nofun ?_ ?_
        · refine (sound_pattern fuel).bind fun pks p hp => .expect nofun fun _ => ?_
          refine hexpr.bind fun eks e he => .expect nofun fun _ => .pure fun span => ?_
          exact .bindMut span hp he
        · refine (sound_pattern fuel).bind fun pks p hp => .expect nofun fun _ => ?_
          refine hexpr.bind fun eks e he => .expect nofun fun _ => .pure fun span => ?_
          exact .bind span hp he
    | set =>
        refine .advance nofun fun _ => hexpr.bind fun tks t ht => .expect nofun fun _ => ?_
        refine hexpr.bind fun vks v hv => .expect nofun fun _ => .pure fun span => ?_
        exact .assign span ht hv
    | return_ =>
        refine .advance nofun fun _ => .ifEat nofun (.pure .retNone) ?_
        refine hexpr.bind fun ks e he => .expect nofun fun _ => .pure fun span => ?_
        exact .ret span he
    | if_ =>
        refine .advance nofun fun _ => (sound_branches hblock fuel).bind fun ks bs hbs => ?_
        refine (sound_blockAfter .else_ hblock).bind fun oks b hb => .pure fun span => ?_
        rw [List.append_nil]
        exact .choose span hbs hb
    | while_ =>
        refine .advance nofun fun _ => hexpr.bind fun cks c hc => ?_
        refine hblock.bind fun bks b hb => .pure fun span => ?_
        rw [List.append_nil]
        exact .loopWhile span hc hb
    | for_ =>
        refine .advance nofun fun _ => (sound_pattern fuel).bind fun pks p hp => ?_
        refine .expect nofun fun _ => hexpr.bind fun eks e he => ?_
        refine hblock.bind fun bks b hb => .pure fun span => ?_
        rw [List.append_nil]
        exact .loopFor span hp he hb
    | repeat_ =>
        refine .advance nofun fun _ => hblock.bind fun bks b hb => .expect nofun fun _ => ?_
        refine hexpr.bind fun cks c hc => (sound_blockAfter .fixup hblock).bind fun xks x hx => ?_
        exact .expect nofun fun _ => .pure fun span => .loopUntil span hb hc hx
    | _ => exact .forget hdefault
  | mark mark => cases mark with
    | lbrace =>
        refine .forget (hblock.bind fun ks b hb => .pure fun span => ?_)
        rw [List.append_nil]
        exact .block span hb
    | _ => exact .forget hdefault
  | _ => exact .forget hdefault

/-- What is read as a statement is one, if blocks are read as such. -/
theorem sound_stmt (hblock : Sound block IsBlock) (fuel : Nat) :
    Sound (stmt block fuel) IsStmt := by
  refine .current fun first => (sound_stmtBody hblock fuel).bind fun ks build hbuild => ?_
  refine .lastSpan fun finish => .pure ?_
  rw [List.append_nil]
  exact hbuild _

/-- Statements are read up to a closing brace, which stands ahead. -/
theorem reads_stmts {stmt : Parser Stmt} (hstmt : Sound stmt IsStmt) :
    ∀ fuel, Reads [] (stmts stmt fuel) IsStmts [.mark .rbrace]
  | 0 => .outOfFuel
  | fuel + 1 => by
      refine .peek fun k => ?_
      split
      next => exact .pure .nil
      next => exact .fail _
      next =>
        refine .bind (.forget hstmt) fun ks t ht => (reads_stmts hstmt fuel).bind fun ks' ts hts => ?_
        refine .pure ?_
        rw [List.append_nil]
        exact .cons ht hts

end Stmts

/-- What is read as a block is one. -/
theorem sound_block : ∀ fuel, Sound (block fuel) IsBlock
  | 0 => .outOfFuel
  | fuel + 1 => by
      refine .expect nofun fun opening => ?_
      refine (reads_stmts (sound_stmt (sound_block fuel) _) _).bind fun ks stmts hstmts => ?_
      exact .advance nofun fun closing => .pure (.mk _ hstmts)

/-! ### Callables and programs -/

/-- What is read as a callable is one. -/
theorem sound_callable (fuel : Nat) : Sound (callable fuel) IsCallable := by
  refine .expect nofun fun start => .identifier fun name _ => .expect nofun fun opening => ?_
  refine (Reads.sepList _ (sound_parameter fuel) fuel).bind fun pks list hlist => ?_
  refine .expect nofun fun closing => (sound_block fuel).bind fun bks body hbody => .pure ?_
  rw [List.append_nil]
  exact .mk name _ (.group hlist _) hbody

/-- What is read as callables are callables, and the end of the text stands after them. -/
theorem sound_callables {callable : Parser Callable} (hcallable : Sound callable IsCallable) :
    ∀ fuel, Reads [] (callables callable fuel) IsCallables [.eof]
  | 0 => .outOfFuel
  | fuel + 1 => by
      refine .ifAt (.pure .nil) (hcallable.bind fun ks c hc => ?_)
      refine (sound_callables hcallable fuel).bind fun ks' cs hcs => .pure ?_
      rw [List.append_nil]
      exact .cons hc hcs

/-- What is read as a program is one, and the end of the text stands after it. -/
theorem sound_program (fuel : Nat) : Reads [] (program fuel) IsProgram [.eof] := by
  refine (sound_callables (sound_callable fuel) fuel).bind fun ks cs hcs => .pure ?_
  rw [List.append_nil]
  exact hcs

/-- If nothing is left, the end of the text stands ahead. -/
theorem sound_finished : Reads [] finished (fun ks _ => ks = []) [.eof] :=
  .ifAt (.pure rfl) (.fail _)

/-- What is followed by the end of the text is read up to it. -/
theorem sound_only {α : Type} {p : Parser α} {R : List TokenKind → α → Prop} (hp : Sound p R) :
    Reads [] (do let a ← p; finished; return a) R [.eof] := by
  refine hp.bind fun ks a ha => sound_finished.bind fun ks' _ hks' => .pure ?_
  rw [hks', List.append_nil, List.append_nil]
  exact ha

end Freshen.Grammar

/-! ### Whole token lists -/

namespace Freshen.Parser

/-- If a rule that reads up to the end of the text accepts a token list with one end, it reads all
tokens before that end. -/
theorem derives_of_onTokens {α : Type} {p : Nat → Parser α} {R : List TokenKind → α → Prop}
    (hp : ∀ fuel, Reads [] (p fuel) R [.eof]) {tokens : List Token} {ks : List TokenKind}
    (hkinds : tokens.map Token.kind = ks ++ [.eof]) (heof : .eof ∉ ks) {a : α}
    (h : onTokens p tokens = .ok a) : R ks a := by
  obtain ⟨c', hrun⟩ := run_of_onTokens h
  obtain ⟨read, hread, hne, hR, hafter⟩ := hp _ _ _ _ List.nil_prefix hrun
  have hsplit : ks ++ [.eof] = read ++ c'.kinds := hkinds ▸ hread
  obtain ⟨tail, htail⟩ := hafter
  cases hleft : c'.kinds with
  | nil =>
      rw [hleft, List.append_nil] at hsplit
      exact absurd (hsplit ▸ List.mem_append_right ks List.mem_cons_self) hne
  | cons k left =>
      rw [Cursor.ahead, hleft] at htail
      obtain rfl : TokenKind.eof = k := (List.cons.inj htail).1
      rw [hleft] at hsplit
      exact ((List.append_cons_inj_of_notMem heof List.not_mem_nil).1 hsplit).1 ▸ hR

end Freshen.Parser
