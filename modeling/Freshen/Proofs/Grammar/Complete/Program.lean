import Mathlib
import Freshen.Proofs.Grammar.Complete.Exprs
import Freshen.Proofs.Grammar.Respan

/-!
# Derived programs are parsed

On the tokens of a statement, a block, a callable or a program the parser reads exactly these
tokens and answers with the tree, without spans. The tokens of a program, a lone callable or a lone
expression are followed by the end of the text.

**Key results.** `IsProgram.completes`, `IsCallable.onlyCompletes`, `IsExpr.onlyCompletes`.
-/

namespace Freshen

namespace Grammar

open Freshen.Parser
open Cursor (bare)

/-! ### Statements -/

/-- A token that opens an expression or a pattern is no other token. -/
theorem onKinds_eat_of_opens {β : Type} {ks : List TokenKind} (h : Opens ks) {k : TokenKind}
    (hk : k.opens = false) (f : Bool → Parser β) (rest : List TokenKind) :
    (eat k >>= f).onKinds (ks ++ rest) = (f false).onKinds (ks ++ rest) := by
  obtain ⟨k', ks, rfl, hne⟩ := h.ne hk
  exact onKinds_eat_of_ne hne f

/-- The rule for patterns reads a pattern in front of any token that does not go on with a binding site. -/
theorem onKinds_pattern {ks : List TokenKind} {p : Pattern} (h : IsPattern ks p) {fuel : Nat}
    (hfuel : ks.length ≤ fuel) {k : TokenKind} (hlt : k ≠ .mark .lt) (hcolon : k ≠ .mark .colon)
    (rest : List TokenKind) :
    (pattern fuel).onKinds (ks ++ k :: rest) = .ok (p.withoutSpans, bare (k :: rest)) :=
  h.item.2 fuel hfuel _ ⟨k, rest, rfl, hlt, hcolon⟩

section Stmts

variable {ks : List TokenKind} {fuel loop : Nat} {rest : List TokenKind}

/-- On the tokens of a block the rule for blocks reads it. -/
def BlockCompletes (ks : List TokenKind) (b : Block) : Prop :=
  ∀ fuel, ks.length ≤ fuel → ∀ rest,
    (block fuel).onKinds (ks ++ rest) = .ok (b.withoutSpans, bare rest)

/-- The next token is none that goes on with a choice. -/
def EndsStmt (rest : List TokenKind) : Prop :=
  ∃ k rest', rest = k :: rest' ∧ k ≠ .keyword .elif ∧ k ≠ .keyword .else_

/-- On the tokens of a statement the rule for statements reads it. -/
def StmtCompletes (ks : List TokenKind) (t : Stmt) : Prop :=
  ∀ fuel, ks.length ≤ fuel → ∀ rest, EndsStmt rest →
    ∃ build, (stmtBody (block fuel) (fuel + 1)).onKinds (ks ++ rest) = .ok (build, bare rest) ∧
      build .nowhere = t.withoutSpans

/-- After a token that opens an expression, a statement is an expression. -/
theorem onKinds_stmtBody_of_opens (h : Opens ks) (block : Parser Block) (fuel : Nat)
    (rest : List TokenKind) :
    (stmtBody block fuel).onKinds (ks ++ rest) =
      (do
        let value ← expr fuel
        let _ ← expect (.mark .semicolon)
        return Stmt.eval value : Parser (Span → Stmt)).onKinds (ks ++ rest) := by
  obtain ⟨k, ks, rfl, hk⟩ := h
  rw [stmtBody, List.cons_append, onKinds_peek]
  cases k with
  | keyword word => cases word <;> first | rfl | exact absurd hk (by decide)
  | mark mark => cases mark <;> first | rfl | exact absurd hk (by decide)
  | _ => rfl

/-- What follows `let`, and `mut` if it is there. -/
theorem onKinds_binding {pks eks : List TokenKind} {p : Pattern} {e : Expr} (mutable : Bool)
    (hp : IsPattern pks p) (he : IsExpr 1 eks e) (hpks : pks.length ≤ fuel) (heks : eks.length ≤ fuel)
    (rest : List TokenKind) :
    (do
      let pat ← pattern fuel
      let _ ← expect (.mark .eq)
      let init ← expr fuel
      let _ ← expect (.mark .semicolon)
      return Stmt.bind pat mutable init : Parser (Span → Stmt)).onKinds
        (pks ++ .mark .eq :: (eks ++ .mark .semicolon :: rest)) =
      .ok (.bind p.withoutSpans mutable e.withoutSpans, bare rest) := by
  have hpattern := onKinds_pattern (k := .mark .eq) hp hpks nofun nofun (eks ++ .mark .semicolon :: rest)
  have hexpr := onKinds_expr (k := .mark .semicolon) he heks rfl rest
  simp [onKinds_bind hpattern, onKinds_bind hexpr, -bind_pure_comp]

/-- A binding that is not mutable is read. -/
theorem StmtCompletes.bind {pks eks : List TokenKind} {p : Pattern} {e : Expr} {span : Span}
    (hp : IsPattern pks p) (he : IsExpr 1 eks e) :
    StmtCompletes (.keyword .let_ :: (pks ++ .mark .eq :: (eks ++ [.mark .semicolon])))
      (.bind p false e span) := by
  intro fuel hfuel rest _
  simp only [List.length_append, List.length_cons, List.length_nil] at hfuel
  refine ⟨.bind p.withoutSpans false e.withoutSpans, ?_, rfl⟩
  simp only [List.cons_append, List.append_assoc, List.nil_append]
  rw [stmtBody, onKinds_peek]
  refine (onKinds_advance (k := .keyword .let_) nofun _).trans ?_
  refine (onKinds_eat_of_opens hp.item.1 (k := .keyword .mut_) rfl _ _).trans ?_
  exact onKinds_binding false hp he (by omega) (by omega) rest

/-- A mutable binding is read. -/
theorem StmtCompletes.bindMut {pks eks : List TokenKind} {p : Pattern} {e : Expr} {span : Span}
    (hp : IsPattern pks p) (he : IsExpr 1 eks e) :
    StmtCompletes
      (.keyword .let_ :: .keyword .mut_ :: (pks ++ .mark .eq :: (eks ++ [.mark .semicolon])))
      (.bind p true e span) := by
  intro fuel hfuel rest _
  simp only [List.length_append, List.length_cons, List.length_nil] at hfuel
  refine ⟨.bind p.withoutSpans true e.withoutSpans, ?_, rfl⟩
  simp only [List.cons_append, List.append_assoc, List.nil_append]
  rw [stmtBody, onKinds_peek]
  refine (onKinds_advance (k := .keyword .let_) nofun _).trans ?_
  refine (onKinds_eat (k := .keyword .mut_) nofun _).trans ?_
  exact onKinds_binding true hp he (by omega) (by omega) rest

/-- An assignment is read. -/
theorem StmtCompletes.assign {tks vks : List TokenKind} {t v : Expr} {span : Span}
    (ht : IsExpr 1 tks t) (hv : IsExpr 1 vks v) :
    StmtCompletes (.keyword .set :: (tks ++ .mark .eq :: (vks ++ [.mark .semicolon])))
      (.assign t v span) := by
  intro fuel hfuel rest _
  simp only [List.length_append, List.length_cons, List.length_nil] at hfuel
  have hvalue := onKinds_expr (k := .mark .semicolon) hv
    (show vks.length ≤ fuel + 1 by omega) rfl rest
  have htarget := onKinds_expr (k := .mark .eq) ht (show tks.length ≤ fuel + 1 by omega) rfl
    (vks ++ .mark .semicolon :: rest)
  refine ⟨.assign t.withoutSpans v.withoutSpans, ?_, rfl⟩
  simp only [List.cons_append, List.append_assoc, List.nil_append]
  rw [stmtBody, onKinds_peek]
  refine (onKinds_advance (k := .keyword .set) nofun _).trans ?_
  simp [onKinds_bind htarget, onKinds_bind hvalue, -bind_pure_comp]

/-- An expression with a semicolon is read as a statement. -/
theorem StmtCompletes.eval {e : Expr} {span : Span} (he : IsExpr 1 ks e) :
    StmtCompletes (ks ++ [.mark .semicolon]) (.eval e span) := by
  intro fuel hfuel rest _
  simp only [List.length_append, List.length_cons, List.length_nil] at hfuel
  have hexpr := onKinds_expr (k := .mark .semicolon) he
    (show ks.length ≤ fuel + 1 by omega) rfl rest
  refine ⟨.eval e.withoutSpans, ?_, rfl⟩
  rw [List.append_assoc, onKinds_stmtBody_of_opens he.climbs.opens]
  simp [onKinds_bind hexpr, -bind_pure_comp]

/-- A return of nothing is read. -/
theorem StmtCompletes.retNone {span : Span} :
    StmtCompletes [.keyword .return_, .mark .semicolon] (.ret none span) := by
  intro fuel hfuel rest _
  refine ⟨.ret none, ?_, rfl⟩
  rw [stmtBody, List.cons_append, onKinds_peek]
  refine (onKinds_advance (k := .keyword .return_) nofun _).trans ?_
  simp

/-- A return of a value is read. -/
theorem StmtCompletes.ret {e : Expr} {span : Span} (he : IsExpr 1 ks e) :
    StmtCompletes (.keyword .return_ :: (ks ++ [.mark .semicolon])) (.ret (some e) span) := by
  intro fuel hfuel rest _
  simp only [List.length_append, List.length_cons, List.length_nil] at hfuel
  have hexpr := onKinds_expr (k := .mark .semicolon) he
    (show ks.length ≤ fuel + 1 by omega) rfl rest
  refine ⟨.ret (some e.withoutSpans), ?_, rfl⟩
  simp only [List.cons_append, List.append_assoc, List.nil_append]
  rw [stmtBody, onKinds_peek]
  refine (onKinds_advance (k := .keyword .return_) nofun _).trans ?_
  simp [onKinds_eat_of_opens he.climbs.opens (show (TokenKind.mark .semicolon).opens = false from rfl),
    onKinds_bind hexpr, -bind_pure_comp]

/-- A block begins with a brace. -/
theorem IsBlock.starts {b : Block} (h : IsBlock ks b) : ∃ ks', ks = .mark .lbrace :: ks' := by
  cases h
  exact ⟨_, rfl⟩

/-- An expression with a block after it. -/
theorem onKinds_expr_block {bks : List TokenKind} {e : Expr} {b : Block} (he : IsExpr 1 ks e)
    (hb : IsBlock bks b) (hfuel : ks.length ≤ fuel) (rest : List TokenKind) :
    (expr fuel).onKinds (ks ++ (bks ++ rest)) = .ok (e.withoutSpans, bare (bks ++ rest)) := by
  obtain ⟨bks, rfl⟩ := hb.starts
  exact onKinds_expr he hfuel rfl (bks ++ rest)

/-- A loop over a condition is read. -/
theorem StmtCompletes.loopWhile {cks bks : List TokenKind} {c : Expr} {b : Block} {span : Span}
    (hc : IsExpr 1 cks c) (hb : IsBlock bks b) (hbody : BlockCompletes bks b) :
    StmtCompletes (.keyword .while_ :: (cks ++ bks)) (.loopWhile c b span) := by
  intro fuel hfuel rest _
  simp only [List.length_append, List.length_cons] at hfuel
  have hcond := onKinds_expr_block hc hb (show cks.length ≤ fuel + 1 by omega) rest
  have hblock := hbody _ (show bks.length ≤ fuel by omega) rest
  refine ⟨.loopWhile c.withoutSpans b.withoutSpans, ?_, rfl⟩
  simp only [List.cons_append, List.append_assoc]
  rw [stmtBody, onKinds_peek]
  refine (onKinds_advance (k := .keyword .while_) nofun _).trans ?_
  simp [onKinds_bind hcond, onKinds_bind hblock, -bind_pure_comp]

/-- A loop over items is read. -/
theorem StmtCompletes.loopFor {pks eks bks : List TokenKind} {p : Pattern} {e : Expr} {b : Block}
    {span : Span} (hp : IsPattern pks p) (he : IsExpr 1 eks e) (hb : IsBlock bks b)
    (hbody : BlockCompletes bks b) :
    StmtCompletes (.keyword .for_ :: (pks ++ .keyword .in_ :: (eks ++ bks)))
      (.loopFor p e b span) := by
  intro fuel hfuel rest _
  simp only [List.length_append, List.length_cons] at hfuel
  have hpattern := onKinds_pattern (k := .keyword .in_) hp (show pks.length ≤ fuel + 1 by omega)
    nofun nofun (eks ++ (bks ++ rest))
  have hsource := onKinds_expr_block he hb (show eks.length ≤ fuel + 1 by omega) rest
  have hblock := hbody _ (show bks.length ≤ fuel by omega) rest
  refine ⟨.loopFor p.withoutSpans e.withoutSpans b.withoutSpans, ?_, rfl⟩
  simp only [List.cons_append, List.append_assoc]
  rw [stmtBody, onKinds_peek]
  refine (onKinds_advance (k := .keyword .for_) nofun _).trans ?_
  simp [onKinds_bind hpattern, onKinds_bind hsource, onKinds_bind hblock, -bind_pure_comp]

/-- A block that stands as a statement is read. -/
theorem StmtCompletes.block {b : Block} {span : Span} (hb : IsBlock ks b)
    (hbody : BlockCompletes ks b) : StmtCompletes ks (.block b span) := by
  intro fuel hfuel rest _
  have hblock := hbody _ hfuel rest
  refine ⟨.block b.withoutSpans, ?_, rfl⟩
  obtain ⟨ks, rfl⟩ := hb.starts
  rw [List.cons_append] at hblock ⊢
  rw [stmtBody, onKinds_peek]
  exact onKinds_bind hblock _

/-- On an optional block after a word the rule for it reads it. -/
def BlockAfterCompletes (word : Keyword) (ks : List TokenKind) (b : Option Block) : Prop :=
  ∀ fuel, ks.length ≤ fuel → ∀ k, k ≠ .keyword word → ∀ rest,
    (blockAfter word (block fuel)).onKinds (ks ++ k :: rest) =
      .ok (b.map Block.withoutSpans, bare (k :: rest))

/-- A loop up to a condition is read, with or without a block to repair it. -/
theorem StmtCompletes.loopUntil {bks cks xks : List TokenKind} {b : Block} {c : Expr}
    {x : Option Block} {span : Span} (hbody : BlockCompletes bks b) (hc : IsExpr 1 cks c)
    (hx : IsBlockAfter .fixup xks x) (hfixup : BlockAfterCompletes .fixup xks x) :
    StmtCompletes
      (.keyword .repeat_ :: (bks ++ .keyword .until_ :: (cks ++ (xks ++ [.mark .semicolon]))))
      (.loopUntil b c x span) := by
  intro fuel hfuel rest _
  simp only [List.length_append, List.length_cons, List.length_nil] at hfuel
  have hblock := hbody _ (show bks.length ≤ fuel by omega)
    (.keyword .until_ :: (cks ++ (xks ++ .mark .semicolon :: rest)))
  have hcond : (expr (fuel + 1)).onKinds (cks ++ (xks ++ .mark .semicolon :: rest)) =
      .ok (c.withoutSpans, bare (xks ++ .mark .semicolon :: rest)) := by
    cases hx with
    | none => exact onKinds_expr hc (by omega) rfl _
    | some => exact onKinds_expr hc (by omega) rfl _
  have hafter := hfixup _ (show xks.length ≤ fuel by omega) _
    (show TokenKind.mark .semicolon ≠ .keyword .fixup from nofun) rest
  refine ⟨.loopUntil b.withoutSpans c.withoutSpans (x.map Block.withoutSpans), ?_, ?_⟩
  · simp only [List.cons_append, List.append_assoc, List.nil_append]
    rw [stmtBody, onKinds_peek]
    refine (onKinds_advance (k := .keyword .repeat_) nofun _).trans ?_
    simp [onKinds_bind hblock, onKinds_bind hcond, onKinds_bind hafter, -bind_pure_comp]
  · simp only [Stmt.withoutSpans, Stmt.mapSpans, Block.mapSpansOption_eq_map]

/-- On the branches of a choice the rule for them reads them. -/
def BranchesComplete (ks : List TokenKind) (bs : List Branch) : Prop :=
  ∀ fuel loop, ks.length ≤ fuel → ks.length ≤ loop → ∀ rest,
    (∃ k rest', rest = k :: rest' ∧ k ≠ .keyword .elif) →
      (branches (block fuel) loop).onKinds (ks ++ rest) =
        .ok (Branch.mapSpansList (fun _ => .nowhere) bs, bare rest)

/-- A choice is read, with or without a block for the remaining case. -/
theorem StmtCompletes.choose {oks : List TokenKind} {bs : List Branch} {b : Option Block} {span : Span}
    (hbs : BranchesComplete ks bs) (hb : IsBlockAfter .else_ oks b)
    (hotherwise : BlockAfterCompletes .else_ oks b) :
    StmtCompletes (.keyword .if_ :: (ks ++ oks)) (.choose bs b span) := by
  rintro fuel hfuel rest ⟨k, rest, rfl, helif, helse⟩
  simp only [List.length_append, List.length_cons] at hfuel
  have hbranches := hbs _ _ (show ks.length ≤ fuel by omega)
    (show ks.length ≤ fuel + 1 by omega) (oks ++ k :: rest) (by
    cases hb with
    | none => exact ⟨_, _, rfl, helif⟩
    | some => exact ⟨_, _, rfl, nofun⟩)
  have hafter := hotherwise _ (show oks.length ≤ fuel by omega) _ helse rest
  refine ⟨.choose (Branch.mapSpansList (fun _ => .nowhere) bs) (b.map Block.withoutSpans), ?_, ?_⟩
  · simp only [List.cons_append, List.append_assoc]
    rw [stmtBody, onKinds_peek]
    refine (onKinds_advance (k := .keyword .if_) nofun _).trans ?_
    simp [onKinds_bind hbranches, onKinds_bind hafter, -bind_pure_comp]
  · simp only [Stmt.withoutSpans, Stmt.mapSpans, Block.mapSpansOption_eq_map]

/-- A last branch is read. -/
theorem BranchesComplete.last {cks bks : List TokenKind} {c : Expr} {b : Block}
    (hc : IsExpr 1 cks c) (hb : IsBlock bks b) (hbody : BlockCompletes bks b) :
    BranchesComplete (cks ++ bks) [⟨c, b⟩] := by
  rintro fuel (_ | loop) hfuel hloop rest ⟨k, rest, rfl, hk⟩
  · exact absurd hloop (by simp [hc.climbs.opens.length_pos.ne'])
  · simp only [List.length_append] at hfuel hloop
    have hcond := onKinds_expr_block hc hb (show cks.length ≤ loop + 1 by omega) (k :: rest)
    have hblock := hbody _ (show bks.length ≤ fuel by omega) (k :: rest)
    rw [List.append_assoc]
    simp [branches, onKinds_bind hcond, onKinds_bind hblock, hk, Branch.mapSpansList]

/-- A branch in front of others is read. -/
theorem BranchesComplete.cons {cks bks : List TokenKind} {c : Expr} {b : Block} {bs : List Branch}
    (hc : IsExpr 1 cks c) (hb : IsBlock bks b) (hbody : BlockCompletes bks b)
    (hbs : BranchesComplete ks bs) :
    BranchesComplete (cks ++ (bks ++ .keyword .elif :: ks)) (⟨c, b⟩ :: bs) := by
  rintro fuel (_ | loop) hfuel hloop rest hrest
  · exact absurd hloop (by simp)
  · simp only [List.length_append, List.length_cons] at hfuel hloop
    have hcond := onKinds_expr_block hc hb (show cks.length ≤ loop + 1 by omega)
      (.keyword .elif :: (ks ++ rest))
    have hblock := hbody _ (show bks.length ≤ fuel by omega) (.keyword .elif :: (ks ++ rest))
    have hlater := hbs _ _ (show ks.length ≤ fuel by omega) (show ks.length ≤ loop by omega) _ hrest
    simp only [List.append_assoc, List.cons_append]
    simp [branches, onKinds_bind hcond, onKinds_bind hblock, onKinds_bind hlater,
      Branch.mapSpansList, -bind_pure_comp]

/-- Where the word does not come next, there is no block after it. -/
theorem BlockAfterCompletes.none {word : Keyword} : BlockAfterCompletes word [] none := by
  intro fuel _ k hk rest
  simp [blockAfter, hk]

/-- The block after a word is read. -/
theorem BlockAfterCompletes.some {word : Keyword} {b : Block} (hbody : BlockCompletes ks b) :
    BlockAfterCompletes word (.keyword word :: ks) (some b) := by
  intro fuel hfuel k _ rest
  have hblock := hbody _ ((Nat.le_succ _).trans hfuel) (k :: rest)
  simp [blockAfter, onKinds_bind hblock, -bind_pure_comp]

/-- On statements up to a closing brace, which is not read, the rule for statements reads them. -/
def StmtsComplete (ks : List TokenKind) (ts : List Stmt) : Prop :=
  ∀ fuel loop, ks.length ≤ fuel → ks.length < loop → ∀ rest,
    (stmts (stmt (block fuel) (fuel + 1)) loop).onKinds (ks ++ .mark .rbrace :: rest) =
      .ok (Stmt.mapSpansList (fun _ => .nowhere) ts, bare (.mark .rbrace :: rest))

/-- The first token of a statement ends no statements and goes on with no choice. -/
theorem IsStmt.starts {t : Stmt} (h : IsStmt ks t) :
    ∃ k ks', ks = k :: ks' ∧ k ≠ .mark .rbrace ∧ k ≠ .eof ∧ k ≠ .keyword .elif ∧
      k ≠ .keyword .else_ := by
  cases h with
  | eval span he =>
      obtain ⟨k, ks, rfl, hk⟩ := he.climbs.opens
      refine ⟨k, _, rfl, ?_, ?_, ?_, ?_⟩ <;> rintro rfl <;> exact absurd hk nofun
  | block span hb =>
      obtain ⟨ks, rfl⟩ := hb.starts
      exact ⟨_, _, rfl, nofun, nofun, nofun, nofun⟩
  | _ => exact ⟨_, _, rfl, nofun, nofun, nofun, nofun⟩

/-- Where a closing brace comes next, there are no statements. -/
theorem StmtsComplete.nil : StmtsComplete [] [] := by
  rintro fuel (_ | loop) hfuel hloop rest
  · exact absurd hloop (Nat.not_lt_zero _)
  · rfl

/-- A statement in front of others is read. -/
theorem StmtsComplete.cons {ks' : List TokenKind} {t : Stmt} {ts : List Stmt} (h : IsStmt ks t)
    (hs : IsStmts ks' ts) (ht : StmtCompletes ks t) (hts : StmtsComplete ks' ts) :
    StmtsComplete (ks ++ ks') (t :: ts) := by
  rintro fuel (_ | loop) hfuel hloop rest
  · exact absurd hloop (Nat.not_lt_zero _)
  simp only [List.length_append] at hfuel hloop
  have hends : EndsStmt (ks' ++ .mark .rbrace :: rest) := by
    cases hs with
    | nil => exact ⟨_, _, rfl, nofun, nofun⟩
    | cons h' _ =>
        obtain ⟨k, ks', rfl, -, -, helif, helse⟩ := h'.starts
        exact ⟨k, _, rfl, helif, helse⟩
  obtain ⟨build, hbuild, hnowhere⟩ := ht _ (show ks.length ≤ fuel by omega) _ hends
  obtain ⟨k, ks, rfl, hbrace, heof, -, -⟩ := h.starts
  have hlater := hts _ _ (show ks'.length ≤ fuel by omega)
    (show ks'.length < loop by simp at hloop; omega) rest
  have hstmt : (stmt (block fuel) (fuel + 1)).onKinds (k :: (ks ++ (ks' ++ .mark .rbrace :: rest))) =
      .ok (t.withoutSpans, bare (ks' ++ .mark .rbrace :: rest)) := by
    rw [List.cons_append] at hbuild
    rw [stmt, onKinds_current, onKinds_bind hbuild, onKinds_lastSpan]
    simp [hnowhere]
  rw [List.append_assoc, List.cons_append, stmts, onKinds_peek]
  split
  next => exact absurd rfl hbrace
  next => exact absurd rfl heof
  next => simp [onKinds_bind hstmt, onKinds_bind hlater, Stmt.mapSpansList, -bind_pure_comp]

/-- Statements between braces are read as a block. -/
theorem BlockCompletes.mk {ts : List Stmt} {span : Span} (h : StmtsComplete ks ts) :
    BlockCompletes (.mark .lbrace :: (ks ++ [.mark .rbrace])) ⟨ts, span⟩ := by
  rintro (_ | fuel) hfuel rest
  · exact absurd hfuel (by simp)
  simp only [List.length_append, List.length_cons, List.length_nil] at hfuel
  have hstmts := h _ _ (show ks.length ≤ fuel by omega) (show ks.length < fuel + 1 by omega) rest
  simp [block, onKinds_bind hstmts, Block.mapSpans, -bind_pure_comp]

end Stmts

mutual

/-- On the tokens of a statement the rule for statements reads it. -/
theorem IsStmt.completes {ks : List TokenKind} {t : Stmt} : IsStmt ks t → StmtCompletes ks t
  | .bind _ hp he => StmtCompletes.bind hp he
  | .bindMut _ hp he => StmtCompletes.bindMut hp he
  | .assign _ ht hv => StmtCompletes.assign ht hv
  | .eval _ he => StmtCompletes.eval he
  | .retNone _ => StmtCompletes.retNone
  | .ret _ he => StmtCompletes.ret he
  | .choose _ hbs hb =>
      StmtCompletes.choose (IsBranches.completes hbs) hb (IsBlockAfter.completes hb)
  | .loopWhile _ hc hb => StmtCompletes.loopWhile hc hb (IsBlock.completes hb)
  | .loopFor _ hp he hb => StmtCompletes.loopFor hp he hb (IsBlock.completes hb)
  | .loopUntil _ hb hc hx =>
      StmtCompletes.loopUntil (IsBlock.completes hb) hc hx (IsBlockAfter.completes hx)
  | .block _ hb => StmtCompletes.block hb (IsBlock.completes hb)

/-- On the tokens of a block the rule for blocks reads it. -/
theorem IsBlock.completes {ks : List TokenKind} {b : Block} : IsBlock ks b → BlockCompletes ks b
  | .mk _ h => BlockCompletes.mk (IsStmts.completes h)

/-- On the tokens of an optional block after a word, the rule for it reads them. -/
theorem IsBlockAfter.completes {word : Keyword} {ks : List TokenKind} {b : Option Block} :
    IsBlockAfter word ks b → BlockAfterCompletes word ks b
  | .none => BlockAfterCompletes.none
  | .some h => BlockAfterCompletes.some (IsBlock.completes h)

/-- On the tokens of statements, the rule for statements reads them. -/
theorem IsStmts.completes {ks : List TokenKind} {ts : List Stmt} :
    IsStmts ks ts → StmtsComplete ks ts
  | .nil => StmtsComplete.nil
  | .cons h hs => StmtsComplete.cons h hs (IsStmt.completes h) (IsStmts.completes hs)

/-- On the tokens of branches, the rule for branches reads them. -/
theorem IsBranches.completes {ks : List TokenKind} {bs : List Branch} :
    IsBranches ks bs → BranchesComplete ks bs
  | .last hc hb => BranchesComplete.last hc hb (IsBlock.completes hb)
  | .cons hc hb hbs =>
      BranchesComplete.cons hc hb (IsBlock.completes hb) (IsBranches.completes hbs)

end

/-! ### Callables and programs -/

/-- A parenthesised parameter is what the rule for groups makes of the parameters in it. -/
theorem IsParam.exists_group {ks : List TokenKind} {p : Params}
    (h : IsParam (.mark .lparen :: (ks ++ [.mark .rparen])) p) :
    ∃ items comma span, SepBy IsParam ks items comma ∧ p = groupParams items span := by
  generalize hks : TokenKind.mark .lparen :: (ks ++ [TokenKind.mark .rparen]) = ks' at h
  cases h with
  | binder h =>
      cases h
      exact absurd (List.cons.inj hks).1 nofun
  | unnamed => exact absurd (List.cons.inj hks).1 nofun
  | paren h =>
      obtain rfl := List.append_cancel_right (List.cons.inj hks).2
      exact ⟨[p], _, .nowhere, h, rfl⟩
  | tuple span h hlength =>
      obtain rfl := List.append_cancel_right (List.cons.inj hks).2
      exact ⟨_, _, span, h, (groupParams_eq_tuple hlength).symm⟩

/-- On the tokens of a callable the rule for callables reads it, whatever follows. -/
theorem IsCallable.completes {ks : List TokenKind} {c : Callable} (h : IsCallable ks c) {fuel : Nat}
    (hfuel : ks.length ≤ fuel) (rest : List TokenKind) :
    (callable fuel).onKinds (ks ++ rest) = .ok (c.withoutSpans, bare rest) := by
  cases h with
  | @mk pks bks params body name span hparams hbody =>
      simp only [List.length_append, List.length_cons] at hfuel
      obtain ⟨items, comma, span', hitems, rfl⟩ := hparams.exists_group
      have hclose : (TokenKind.mark .rparen).opens = false := rfl
      have hlist := onKinds_items (SepBy.paramItems hitems) hclose (by decide)
        (fun _ => ⟨_, _, rfl, by decide, by decide⟩) ⟨_, bks ++ rest, rfl, by decide, by decide⟩
        (show pks.length ≤ fuel by omega) (show pks.length < fuel by omega)
      have hblock := hbody.completes _ (show bks.length ≤ fuel by omega) rest
      simp only [List.cons_append, List.append_assoc]
      simp [callable, onKinds_bind hlist, onKinds_bind hblock, Callable.mapSpans,
        ← groupParams_mapSpans, Block.span_mapSpans, -bind_pure_comp]

/-- On the tokens of callables before the end of the text the rule for callables reads them. -/
theorem IsCallables.completes {ks : List TokenKind} {cs : List Callable} (h : IsCallables ks cs)
    {fuel loop : Nat} (hfuel : ks.length ≤ fuel) (hloop : ks.length < loop) :
    (callables (callable fuel) loop).onKinds (ks ++ [.eof]) =
      .ok (cs.map Callable.withoutSpans, bare [.eof]) := by
  induction h generalizing loop with
  | nil =>
      obtain ⟨loop, rfl⟩ : ∃ n, loop = n + 1 := ⟨loop - 1, by omega⟩
      rfl
  | @cons ks ks' c cs hc _ ih =>
      obtain ⟨loop, rfl⟩ : ∃ n, loop = n + 1 := ⟨loop - 1, by omega⟩
      simp only [List.length_append] at hfuel hloop
      have hfirst := hc.completes (show ks.length ≤ fuel by omega) (ks' ++ [.eof])
      cases hc with
      | mk name span =>
          have hlater := ih (show ks'.length ≤ fuel by omega)
            (show ks'.length < loop by simp at hloop; omega)
          simp only [List.cons_append, List.append_assoc] at hfirst ⊢
          simp [callables, onKinds_bind hfirst, onKinds_bind hlater, -bind_pure_comp]

/-- On the tokens of a program up to the end of the text, the rule for programs reads them. -/
theorem IsProgram.completes {ks : List TokenKind} {p : Program} (h : IsProgram ks p) {fuel : Nat}
    (hfuel : ks.length < fuel) :
    (program fuel).onKinds (ks ++ [.eof]) = .ok (p.withoutSpans, bare [.eof]) := by
  have hcallables := IsCallables.completes h hfuel.le hfuel
  simp [program, onKinds_bind hcallables, Program.mapSpans, -bind_pure_comp]

/-- On the tokens of a callable and nothing else, the rule for one callable reads them. -/
theorem IsCallable.onlyCompletes {ks : List TokenKind} {c : Callable} (h : IsCallable ks c)
    {fuel : Nat} (hfuel : ks.length < fuel) :
    (onlyCallable fuel).onKinds (ks ++ [.eof]) = .ok (c.withoutSpans, bare [.eof]) := by
  have hcallable := h.completes hfuel.le [.eof]
  simp [onlyCallable, onKinds_bind hcallable, finished]

/-- On the tokens of an expression and nothing else, the rule for one expression reads them. -/
theorem IsExpr.onlyCompletes {ks : List TokenKind} {e : Expr} (h : IsExpr 1 ks e)
    {fuel : Nat} (hfuel : ks.length < fuel) :
    (onlyExpr fuel).onKinds (ks ++ [.eof]) = .ok (e.withoutSpans, bare [.eof]) := by
  have hexpr := onKinds_expr (k := .eof) h hfuel.le rfl []
  simp [onlyExpr, onKinds_bind hexpr, finished]

end Grammar

end Freshen
