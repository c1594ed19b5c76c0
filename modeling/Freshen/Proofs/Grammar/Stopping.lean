import Mathlib
import Freshen.Proofs.Grammar.Complete.Program
import Freshen.Proofs.Grammar.Soundness
import Freshen.Proofs.Grammar.Viable

/-!
# Where each rule stops

Each rule of the parser stops only at a token that cannot come next: what it read before can be completed to
tokens that a tree is derived from.  With at least as much fuel as there are tokens, no rule lacks any.

- `segments_eq`: the two tokens of lookahead after a name are one, once the first is read.

**Key results.** `viable_type`, `viable_pattern`, `viable_parameter`, `viable_exprAt`, `viable_block`,
`viable_callable`, `viable_program`: each rule is viable for the relation that it is sound for.
-/

namespace Freshen.Grammar

open Freshen.Parser
open Cursor (At Anywhere)

/-! ### Types and binding sites -/

/-- There is a type that tokens can stand for. -/
theorem IsType.exists : ∃ ks t, .eof ∉ ks ∧ IsType ks t :=
  ⟨[.ident ""], _, by simp, .named "" .nowhere⟩

/-- There is a pattern that tokens can stand for. -/
theorem IsPattern.exists : ∃ ks p, .eof ∉ ks ∧ IsPattern ks p :=
  ⟨[.mark .underscore], _, by simp, .discard .nowhere⟩

/-- There is a parameter that tokens can stand for. -/
theorem IsParam.exists : ∃ ks p, .eof ∉ ks ∧ IsParam ks p :=
  ⟨[.mark .underscore], _, by simp, .unnamed .nowhere⟩

section

variable {n fuel : Nat}

/-- Type arguments are viable if types are. -/
theorem viable_typeArgs {type : Nat → Parser TypeExpr} (hsound : ∀ m, Sound (type m) IsType)
    (htype : Viable n Anywhere type IsType) (hn : n ≤ fuel) :
    Viable n Anywhere (fun m => typeArgs (type m) (m + fuel))
      fun ks args => ∃ inner comma, ks = inner ++ [.mark .gt] ∧ SepBy IsType inner args comma := by
  have hitems := Viable.sepList (.mark .gt) hsound htype hn
  apply hitems.andThen (fun m => Reads.sepList _ (hsound m) _)
  intro ks list hlist
  exact .expect fun _ => .pure ⟨ks, list.2, rfl, hlist⟩

/-- Types are viable: where reading one stops, other tokens would have gone on with it. -/
theorem viable_type (hn : n ≤ fuel) : Viable n Anywhere (fun m => type (m + fuel)) IsType := by
  induction fuel generalizing n with
  | zero => exact .none hn IsType.exists
  | succ fuel ih =>
      have hsound := fun m => sound_type (m + fuel)
      have hitem := ih (show n - 1 ≤ fuel by omega)
      apply Viable.peek
      intro k
      cases k with
      | ident name =>
          refine .advance fun start => .ifEat ?_ (.pure (.named name start))
          have hargs := viable_typeArgs hsound (hitem.mono (Nat.sub_le _ 1))
            (show n - 1 - 1 ≤ fuel + 1 by omega)
          apply hargs.andThen (fun m => sound_typeArgs (hsound m) _)
          intro ks args hargs
          refine .lastSpan fun finish => .pure ?_
          obtain ⟨inner, comma, rfl, hargs⟩ := hargs
          rw [List.append_nil]
          exact .applied name _ hargs
      | mark mark => cases mark with
        | lparen =>
            apply Viable.delimited (fun items _ span => TypeExpr.tuple items span) hsound hitem
              (show n - 1 ≤ fuel + 1 by omega)
            exact .tuple
        | lbracket =>
            apply Viable.advance
            intro opening
            apply hitem.andThen hsound
            intro ks elem helem
            exact .expect fun closing => .pure (.array _ helem)
        | _ => exact .fail _ IsType.exists
      | _ => exact .fail _ IsType.exists

/-- The type of a binding site is viable, also where there is none. -/
theorem viable_typeOption (hn : n ≤ fuel) :
    Viable n Anywhere (fun m => annotation (m + fuel)) IsAnnotation := by
  have htype := viable_type (show n - 1 ≤ fuel by omega)
  exact .ifEat (htype.andReturn (fun m => sound_type _) fun _ _ htype => .some htype) (.pure .none)

/-- A binding site is viable where its name comes next. -/
theorem viable_binder (name : Name) (hn : n ≤ fuel) :
    Viable n (At (.ident name)) (fun m => binder name (m + fuel)) IsBinder := by
  have hannotation := viable_typeOption (show n - 1 ≤ fuel by omega)
  apply Viable.advance
  intro start
  apply hannotation.andThen (fun m => sound_typeOption _)
  intro ks type htype
  rw [← List.append_nil ks] at htype
  cases type with
  | some type => exact .pure (.mk name _ htype)
  | none => exact .pure (.mk name _ htype)

/-- After a binder there is nothing more of what it stands for. -/
theorem viable_bound {α : Type} {R : List TokenKind → α → Prop} (make : Binder → α)
    (hmake : ∀ {ks b}, IsBinder ks b → R ks (make b)) (name : Name) (hn : n ≤ fuel) :
    Viable n (At (.ident name)) (fun m => do return make (← binder name (m + fuel))) R := by
  have hahead : ∀ c : Cursor, c.At (.ident name) → [.ident name] <+: c.ahead :=
    fun c hc => hc ▸ c.kind_current
  refine (viable_binder name hn).bindReads (fun m => reads_binder name _) hahead fun ks b hb => .pure ?_
  rw [List.append_nil]
  exact hmake hb

/-- Patterns are viable. -/
theorem viable_pattern (hn : n ≤ fuel) : Viable n Anywhere (fun m => pattern (m + fuel)) IsPattern := by
  induction fuel generalizing n with
  | zero => exact .none hn IsPattern.exists
  | succ fuel ih =>
      have hsound := fun m => sound_pattern (m + fuel)
      have hbinder := fun name => viable_bound Pattern.binder IsPattern.binder name hn
      have hitem := ih (show n - 1 ≤ fuel by omega)
      apply Viable.peek
      intro k
      cases k with
      | ident name => exact hbinder name
      | mark mark => cases mark with
        | underscore => exact .advance fun span => .pure (.discard span)
        | lparen =>
            apply Viable.delimited groupPatterns hsound hitem (show n - 1 ≤ fuel + 1 by omega)
            exact fun span hitems => .group hitems span
        | _ => exact .fail _ IsPattern.exists
      | _ => exact .fail _ IsPattern.exists

/-- Parameters are viable. -/
theorem viable_parameter (hn : n ≤ fuel) : Viable n Anywhere (fun m => parameter (m + fuel)) IsParam := by
  induction fuel generalizing n with
  | zero => exact .none hn IsParam.exists
  | succ fuel ih =>
      have hsound := fun m => sound_parameter (m + fuel)
      have hbinder := fun name => viable_bound Params.binder IsParam.binder name hn
      have hitem := ih (show n - 1 ≤ fuel by omega)
      apply Viable.peek
      intro k
      cases k with
      | ident name => exact hbinder name
      | mark mark => cases mark with
        | underscore => exact .advance fun span => .pure (.unnamed span)
        | lparen =>
            apply Viable.delimited (fun items _ => groupParams items) hsound hitem
              (show n - 1 ≤ fuel + 1 by omega)
            exact fun span hitems => .group hitems span
        | _ => exact .fail _ IsParam.exists
      | _ => exact .fail _ IsParam.exists

/-! ### Expressions -/

/-- What follows the `::` of a path. -/
def afterColons (fuel : Nat) : Parser (List Name × Option (List TypeExpr)) := do
  match ← peek with
  | .ident _ =>
      let (name, _) ← identifier
      let (names, args) ← segments fuel
      return (name :: names, args)
  | .mark .lt =>
      let _ ← advance
      return ([], some (← typeArgs (type fuel) (fuel + 1)))
  | _ => fail .segment

/-- What is done if a certain token is next matters at that token only. -/
theorem ifAt_congr {β : Type} {k : TokenKind} {q q' other : Parser β}
    (h : ∀ c : Cursor, c.At k → q.run c = q'.run c) :
    (do if ← at? k then q else other) = (do if ← at? k then q' else other) := by
  funext c
  change (if decide (c.current.kind = k) = true then q else other).run c =
    (if decide (c.current.kind = k) = true then q' else other).run c
  by_cases hk : c.current.kind = k
  · rw [if_pos (decide_eq_true hk), if_pos (decide_eq_true hk)]
    exact h c hk
  · rw [if_neg (mt of_decide_eq_true hk), if_neg (mt of_decide_eq_true hk)]

/-- The token after one that does not end the text is the next one once that one is read. -/
theorem peekNext_advance {β : Type} {c : Cursor} (h : c.current.kind ≠ .eof) (f : TokenKind → Parser β) :
    (do let k ← peekNext; let _ ← advance; f k).run c = (do let _ ← advance; f (← peek)).run c := by
  have hnext : c.nextKind = c.next.current.kind := by
    obtain ⟨_ | ⟨t, rest⟩, last, finish⟩ := c
    · exact absurd rfl h
    · have ht : t.kind ≠ .eof := h
      simp [Cursor.nextKind, Cursor.next, Cursor.current, ht]
  change (f c.nextKind).run c.next = (f c.next.current.kind).run c.next
  rw [hnext]

/-- The second token of lookahead in a path is the next one after its `::`. -/
theorem segments_eq (fuel : Nat) : segments (fuel + 1) = do
    if ← at? (.mark .doubleColon) then
      let _ ← advance
      afterColons fuel
    else
      return ([], none) := by
  rw [segments]
  refine ifAt_congr fun c hc => ?_
  have hne : c.current.kind ≠ .eof := by
    rw [hc]
    simp
  rw [afterColons, ← peekNext_advance hne]
  congr 2
  funext k
  cases k with
  | mark mark => cases mark <;> rfl
  | _ => rfl

/-- What comes after the first name of a path is viable. -/
theorem viable_segments (hn : n ≤ fuel) :
    Viable n Anywhere (fun m => segments (m + fuel)) fun ks found => IsPathTail ks found.1 found.2 := by
  induction fuel generalizing n with
  | zero => exact .none hn ⟨[], ([], none), List.not_mem_nil, .done⟩
  | succ fuel ih =>
      simp only [← Nat.add_assoc, segments_eq]
      refine .ifAt (.advance fun _ => .peek fun k => ?_) (.pure .done)
      have hnone : ∃ ks found, .eof ∉ ks ∧
          IsPathTail (.mark .doubleColon :: ks) (Prod.fst found) (Prod.snd found) :=
        ⟨[.ident ""], ([""], none), by simp, .segment "" .done⟩
      cases k with
      | ident name =>
          have hmore := ih (show n - 1 - 1 ≤ fuel by omega)
          refine .identifier fun name _ => ?_
          exact hmore.andReturn (fun m => sound_segments _) fun _ _ hfound => .segment name hfound
      | mark mark => cases mark with
        | lt =>
            have hsound := fun m => sound_type (m + fuel)
            have htype := viable_type (show n - 1 - 1 ≤ fuel by omega)
            have hargs := viable_typeArgs hsound htype (show n - 1 - 1 ≤ fuel + 1 by omega)
            refine .advance fun _ => hargs.andReturn (fun m => sound_typeArgs (hsound m) _) ?_
            rintro _ args ⟨inner, comma, rfl, hargs⟩
            exact .args hargs
        | _ => exact .fail _ hnone
      | _ => exact .fail _ hnone

/-- An expression can be read at every level. -/
theorem IsExpr.exists {level : Nat} (hlevel : level ≤ Precedence.atom) :
    ∃ ks e, .eof ∉ ks ∧ IsExpr level ks e :=
  ⟨[.keyword .true_], .bool true .nowhere, by simp, (IsExpr.bool true .nowhere).mono hlevel⟩

section Exprs

variable {m loop : Nat} {expr : Nat → Parser Expr} (hsound : ∀ i, Sound (expr i) (IsExpr 1))
  (hexpr : Viable n Anywhere expr (IsExpr 1))

include hsound hexpr

/-- Primary expressions are viable. -/
theorem viable_primary (hm : m ≤ n + 1) (hloop : m ≤ loop) :
    Viable m Anywhere (fun i => primary (expr i) (i + loop)) (IsExpr Precedence.atom) := by
  have hexpr := hexpr.mono (show m - 1 ≤ n by omega)
  have hfail : ∀ Pre, Viable m Pre (fun _ => fail .expression) (IsExpr Precedence.atom) :=
    fun _ => .fail _ (IsExpr.exists le_rfl)
  apply Viable.peek
  intro k
  cases k with
  | int value => exact .advance fun span => .pure (.int value span)
  | str value => exact .advance fun span => .pure (.str value span)
  | keyword word => cases word with
    | true_ => exact .advance fun span => .pure (.bool true span)
    | false_ => exact .advance fun span => .pure (.bool false span)
    | _ => exact hfail _
  | mark mark => cases mark with
    | lparen =>
        apply Viable.delimited groupExprs hsound hexpr (show m - 1 ≤ loop by omega)
        exact fun span hitems => .group hitems span
    | lbracket =>
        apply Viable.delimited (fun items _ span => Expr.array items span) hsound hexpr
          (show m - 1 ≤ loop by omega)
        exact .array
    | _ => exact hfail _
  | ident name =>
      have hsegments := viable_segments (show m - 1 ≤ loop by omega)
      apply Viable.advance
      intro start
      apply hsegments.andThen (fun i => sound_segments _)
      intro ks found hfound
      refine .lastSpan fun finish => .pure ?_
      rw [List.append_nil]
      exact .path name _ hfound
  | eof => exact hfail _

/-- Calls and indexing of an expression are viable. -/
theorem viable_applications (hm : m ≤ n + 1) (hloop : m ≤ loop) {ks : List TokenKind} {base : Expr}
    (hbase : IsExpr Precedence.postfixed ks base) :
    Viable m Anywhere (fun i => applications (expr i) (i + loop) base)
      fun ks' e => IsExpr Precedence.postfixed (ks ++ ks') e := by
  induction loop generalizing m ks base with
  | zero =>
      refine .none hloop ⟨[], base, List.not_mem_nil, ?_⟩
      rwa [List.append_nil]
  | succ loop ih =>
      have hexpr := hexpr.mono (show m - 1 ≤ n by omega)
      refine .ifEat ?_ (.ifEat ?_ (.pure ?_))
      · have hargs := Viable.sepList (.mark .rparen) hsound hexpr (show m - 1 ≤ loop + 1 by omega)
        refine hargs.andThen (fun i => Reads.sepList _ (hsound i) _) fun ks' list hlist => ?_
        apply Viable.expect
        intro closing
        have hcall := IsExpr.call (base.span.merge closing) hbase hlist
        have hmore := ih (show m - 1 - ks'.length - 1 ≤ n + 1 by omega) (by omega) hcall
        exact hmore.imp fun _ _ he => by simpa using he
      · refine hexpr.andThen hsound fun ks' index hindex => ?_
        apply Viable.expect
        intro closing
        have hcall := IsExpr.index (base.span.merge closing) hbase hindex
        have hmore := ih (show m - 1 - ks'.length - 1 ≤ n + 1 by omega) (by omega) hcall
        exact hmore.imp fun _ _ he => by simpa using he
      · rwa [List.append_nil]

/-- Primary expressions with calls and indexing are viable. -/
theorem viable_postfixed (hm : m ≤ n + 1) (hloop : m ≤ loop) :
    Viable m Anywhere (fun i => postfixed (expr i) (i + loop)) (IsExpr Precedence.postfixed) := by
  apply (viable_primary hsound hexpr hm hloop).andThen (fun i => sound_primary (hsound i) _)
  intro ks base hbase
  exact viable_applications hsound hexpr (by omega) (by omega) (.tighter hbase)

/-- Operands with prefix operators are viable. -/
theorem viable_unary (hm : m ≤ n + 1) (hloop : m ≤ loop) :
    Viable m Anywhere (fun i => unary (expr i) (i + loop)) (IsExpr Precedence.unary) := by
  induction loop generalizing m with
  | zero => exact .none hloop (IsExpr.exists (by decide))
  | succ loop ih =>
      apply Viable.peek
      intro k
      cases hop : unaryOp? k with
      | some op =>
          obtain rfl := unaryOp?_eq_some hop
          have : (unaryToken op).Proper := ⟨by cases op <;> simp [unaryToken]⟩
          have hmore := ih (show m - 1 ≤ n + 1 by omega) (by omega)
          apply Viable.advance
          intro start
          exact hmore.andReturn (fun i => sound_unary (hsound i) _) fun _ _ hoperand =>
            .unary op _ hoperand
      | none =>
          have hplain := viable_postfixed hsound hexpr hm hloop
          exact (hplain.imp fun _ _ he => .tighter he).forget

end Exprs

/-- After `lhs` operators can go on, and each of them with an operand. No operator that binds tighter than
`lhs` stands after it. -/
theorem viable_operators {rhs : Nat → Nat → Parser Expr} {least : Nat}
    (hread : ∀ i, ∀ level ≤ Precedence.unary, ReadsLevel (rhs i level) level)
    (hrhs : ∀ level ≤ Precedence.unary, Viable n Anywhere (fun i => rhs i level) (IsExpr level))
    {m loop level : Nat} {ks : List TokenKind} {lhs : Expr} (hm : m ≤ n + 1) (hloop : m ≤ loop)
    (hlhs : IsExpr level ks lhs) (hleast : least ≤ level) :
    Viable m (OperatorBelow (level + 1)) (fun i => operators (rhs i) least (i + loop) lhs)
      fun ks' e => IsExpr least (ks ++ ks') e := by
  induction loop generalizing m level ks lhs with
  | zero =>
      refine .none hloop ⟨[], lhs, List.not_mem_nil, ?_⟩
      rw [List.append_nil]
      exact hlhs.mono hleast
  | succ loop ih =>
      have hdone : ∀ Pre, Viable m Pre (fun _ => pure lhs) fun ks' e => IsExpr least (ks ++ ks') e := by
        intro Pre
        refine .pure ?_
        rw [List.append_nil]
        exact hlhs.mono hleast
      apply Viable.peekAt
      intro k
      cases hop : binaryOp? k with
      | none => exact hdone _
      | some op =>
          dsimp only
          by_cases hlow : op.precedence < least
          · simp only [if_pos hlow]
            exact hdone _
          · simp only [if_neg hlow]
            by_cases hlevel : op.precedence ≤ level
            · have : k.Proper := ⟨fun hk => by simp [hk, binaryOp?] at hop⟩
              have hrhs := (hrhs _ op.precedence_lt_unary).mono (show m - 1 ≤ n by omega)
              suffices hnext : Viable m (At k) _ _ from hnext.weaken fun c hc => hc.2
              apply Viable.advance
              intro _
              refine hrhs.bind (fun i c a c' _ => hread i _ op.precedence_lt_unary c a c') ?_
              intro ks' operand hoperand
              have hbinary := IsExpr.binary k (lhs.span.merge operand.span)
                (mem_operatorsAt.2 ⟨hop, rfl⟩) (hlhs.mono hlevel) hoperand
              have hmore := ih (show m - 1 - ks'.length ≤ n + 1 by omega) (by omega) hbinary
                (Nat.not_lt.1 hlow)
              exact hmore.imp fun _ _ he => by simpa using he
            · -- an operator that binds tighter than `lhs` would have been read before
              refine ⟨(hdone Anywhere).inhabited, fun c hc _ => absurd (hc.1 op ?_) (by omega)⟩
              rw [hc.2]
              exact hop

/-- Expressions of a level are viable, given fuel for the tokens that are left. -/
theorem viable_exprAt {level : Nat} (hlevel : level ≤ Precedence.unary) (hn : n ≤ fuel) :
    Viable n Anywhere (fun i => exprAt (i + fuel) level) (IsExpr level) := by
  induction fuel generalizing n level with
  | zero => exact .none hn (IsExpr.exists (hlevel.trans (by decide)))
  | succ fuel ih =>
      have hrhs := fun level hlevel => @ih (n - 1) level hlevel (by omega)
      have hsound := fun i => sound_expr (i + fuel)
      have hunary := viable_unary hsound (hrhs 1 (by decide)) (show n ≤ n - 1 + 1 by omega) hn
      apply hunary.andThen (fun i => sound_unary (hsound i) _)
      intro ks lhs hlhs
      have hoperators := viable_operators (fun i => readsLevel_exprAt (i + fuel)) hrhs
        (show n - ks.length ≤ n - 1 + 1 by omega) (show n - ks.length ≤ fuel + 1 by omega) hlhs hlevel
      exact hoperators.weaken fun c _ op _ => op.precedence_lt_unary.trans (Nat.lt_succ_self _)

/-- Expressions are viable. -/
theorem viable_expr (hn : n ≤ fuel) : Viable n Anywhere (fun i => expr (i + fuel)) (IsExpr 1) :=
  viable_exprAt (by decide) hn

/-! ### Statements -/

/-- There is a block that tokens can stand for. -/
theorem IsBlock.exists : ∃ ks b, .eof ∉ ks ∧ IsBlock ks b :=
  ⟨[.mark .lbrace, .mark .rbrace], _, by simp, .mk .nowhere .nil⟩

section Stmts

variable {m loop : Nat} {block : Nat → Parser Block} (hsound : ∀ i, Sound (block i) IsBlock)
  (hblock : Viable n Anywhere block IsBlock)

include hsound hblock

/-- The branches of a choice are viable. -/
theorem viable_branches (hm : m ≤ n) (hloop : m ≤ loop) :
    Viable m Anywhere (fun i => branches (block i) (i + loop)) IsBranches := by
  induction loop generalizing m with
  | zero =>
      obtain ⟨cks, c, hcks, hc⟩ := IsExpr.exists (show 1 ≤ Precedence.atom by decide)
      obtain ⟨bks, b, hbks, hb⟩ := IsBlock.exists
      exact .none hloop ⟨_, _, by simp [hcks, hbks], .last hc hb⟩
  | succ loop ih =>
      apply (viable_expr hloop).andThen (fun i => sound_expr _)
      intro cks cond hcond
      refine (hblock.mono (by omega)).andThen hsound fun bks body hbody => .ifEat ?_ (.pure ?_)
      · have hmore := ih (show m - cks.length - bks.length - 1 ≤ n by omega) (by omega)
        exact hmore.andReturn (fun i => sound_branches (hsound i) _) fun _ _ hbs => .cons hcond hbody hbs
      · rw [List.append_nil]
        exact .last hcond hbody

/-- A block after a word is viable, also where the word does not come next. -/
theorem viable_blockAfter (word : Keyword) :
    Viable n Anywhere (fun i => blockAfter word (block i)) (IsBlockAfter word) := by
  have hafter := hblock.mono (Nat.sub_le n 1)
  exact .ifEat (hafter.andReturn hsound fun _ _ hb => .some hb) (.pure .none)

omit hsound hblock in
/-- What follows `let`, and `mut` if it is there. -/
theorem viable_binding {R : List TokenKind → (Span → Stmt) → Prop} (mutable : Bool) (hm : m ≤ fuel)
    (hR : ∀ {pks eks p e}, IsPattern pks p → IsExpr 1 eks e →
      R (pks ++ .mark .eq :: (eks ++ [.mark .semicolon])) (Stmt.bind p mutable e)) :
    Viable m Anywhere (fun i => do
      let pat ← pattern (i + fuel)
      let _ ← expect (.mark .eq)
      let init ← expr (i + fuel)
      let _ ← expect (.mark .semicolon)
      return Stmt.bind pat mutable init) R := by
  apply (viable_pattern hm).andThen (fun i => sound_pattern (i + fuel))
  intro pks p hp
  apply Viable.expect
  intro _
  apply (viable_expr (show m - pks.length - 1 ≤ fuel by omega)).andThen (fun i => sound_expr (i + fuel))
  intro eks e he
  exact .expect fun _ => .pure (hR hp he)

/-- What a statement is built of is viable, whatever place it will be given. -/
theorem viable_stmtBody (hn : n ≤ fuel) :
    Viable n Anywhere (fun i => stmtBody (block i) (i + fuel))
      fun ks build => ∀ span, IsStmt ks (build span) := by
  have hsoundExpr := fun i => sound_expr (i + fuel)
  have hsoundPattern := fun i => sound_pattern (i + fuel)
  have hexpr : ∀ {m}, m ≤ n → Viable m Anywhere (fun i => expr (i + fuel)) (IsExpr 1) :=
    fun hm => viable_expr (hm.trans hn)
  have hpattern : ∀ {m}, m ≤ n → Viable m Anywhere (fun i => pattern (i + fuel)) IsPattern :=
    fun hm => viable_pattern (hm.trans hn)
  -- what begins with none of the words may begin with an expression
  have hdefault : ∀ Pre, Viable n Pre
      (fun i => do
        let value ← expr (i + fuel)
        let _ ← expect (.mark .semicolon)
        return Stmt.eval value)
      fun ks build => ∀ span, IsStmt ks (build span) := by
    intro Pre
    refine ((hexpr le_rfl).andThen hsoundExpr fun ks value hvalue => ?_).forget
    exact .expect fun _ => .pure fun span => .eval span hvalue
  apply Viable.peek
  intro k
  cases k with
  | keyword word => cases word with
    | let_ =>
        refine .advance fun _ => .eat ?_ ?_
        · apply viable_binding true (show n - 1 - 1 ≤ fuel by omega)
          exact fun hp he span => .bindMut span hp he
        · apply viable_binding false (show n - 1 ≤ fuel by omega)
          exact fun hp he span => .bind span hp he
    | set =>
        apply Viable.advance
        intro _
        apply (hexpr (by omega)).andThen hsoundExpr
        intro tks t ht
        apply Viable.expect
        intro _
        apply (hexpr (by omega)).andThen hsoundExpr
        intro vks v hv
        exact .expect fun _ => .pure fun span => .assign span ht hv
    | return_ =>
        refine .advance fun _ => .ifEat (.pure .retNone) ?_
        apply (hexpr (by omega)).andThen hsoundExpr
        intro ks e he
        exact .expect fun _ => .pure fun span => .ret span he
    | if_ =>
        have hbranches := viable_branches hsound hblock (Nat.sub_le n 1) (show n - 1 ≤ fuel by omega)
        apply Viable.advance
        intro _
        apply hbranches.andThen (fun i => sound_branches (hsound i) _)
        intro ks bs hbs
        have hafter := viable_blockAfter hsound (hblock.mono (show n - 1 - ks.length ≤ n by omega)) .else_
        exact hafter.andReturn (fun i => sound_blockAfter .else_ (hsound i)) fun _ b hb span =>
          .choose span hbs hb
    | while_ =>
        apply Viable.advance
        intro _
        apply (hexpr (by omega)).andThen hsoundExpr
        intro cks c hc
        have hbody := hblock.mono (show n - 1 - cks.length ≤ n by omega)
        exact hbody.andReturn hsound fun _ b hb span => .loopWhile span hc hb
    | for_ =>
        apply Viable.advance
        intro _
        apply (hpattern (by omega)).andThen hsoundPattern
        intro pks p hp
        apply Viable.expect
        intro _
        apply (hexpr (by omega)).andThen hsoundExpr
        intro eks e he
        have hbody := hblock.mono (show n - 1 - pks.length - 1 - eks.length ≤ n by omega)
        exact hbody.andReturn hsound fun _ b hb span => .loopFor span hp he hb
    | repeat_ =>
        apply Viable.advance
        intro _
        apply (hblock.mono (Nat.sub_le n 1)).andThen hsound
        intro bks b hb
        apply Viable.expect
        intro _
        apply (hexpr (by omega)).andThen hsoundExpr
        intro cks c hc
        have hafter := viable_blockAfter hsound
          (hblock.mono (show n - 1 - bks.length - 1 - cks.length ≤ n by omega)) .fixup
        apply hafter.andThen (fun i => sound_blockAfter .fixup (hsound i))
        intro xks x hx
        exact .expect fun _ => .pure fun span => .loopUntil span hb hc hx
    | _ => exact hdefault _
  | mark mark => cases mark with
    | lbrace => exact hblock.andReturn hsound fun _ b hb span => .block span hb
    | _ => exact hdefault _
  | _ => exact hdefault _

/-- Statements are viable. -/
theorem viable_stmt (hn : n ≤ fuel) :
    Viable n Anywhere (fun i => stmt (block i) (i + fuel)) IsStmt := by
  apply Viable.current
  intro first
  apply (viable_stmtBody hsound hblock hn).andThen (fun i => sound_stmtBody (hsound i) _)
  intro ks build hbuild
  refine .lastSpan fun finish => .pure ?_
  rw [List.append_nil]
  exact hbuild _

omit hsound hblock in
/-- Rows of statements up to a closing brace are viable if statements are. -/
theorem viable_stmts {stmt : Nat → Parser Stmt} (hsound : ∀ i, Sound (stmt i) IsStmt)
    (hstmt : Viable n Anywhere stmt IsStmt) (hm : m ≤ n) (hloop : m ≤ loop) :
    Viable m Anywhere (fun i => stmts (stmt i) (i + loop)) IsStmts := by
  have hnil : ∃ ks ts, .eof ∉ ks ∧ IsStmts ks ts := ⟨[], [], List.not_mem_nil, .nil⟩
  induction loop generalizing m with
  | zero => exact .none hloop hnil
  | succ loop ih =>
      have hcons : ∀ Pre, Viable m Pre
          (fun i => do return (← stmt i) :: (← stmts (stmt i) (i + loop))) IsStmts := by
        intro Pre
        refine ((hstmt.mono hm).andThen hsound fun ks t ht => ?_).forget
        -- the statement has a token, so that there is fuel enough for the others
        have hpos : 0 < ks.length := by
          obtain ⟨k, ks', rfl, -⟩ := ht.starts
          exact Nat.succ_pos _
        have hmore := ih (show m - ks.length ≤ n by omega) (by omega)
        exact hmore.andReturn (fun i => (reads_stmts (hsound i) _).untold) fun _ ts hts => .cons ht hts
      apply Viable.peek
      intro k
      cases k with
      | eof => exact .fail _ hnil
      | mark mark => cases mark with
        | rbrace => exact .pure .nil
        | _ => exact hcons _
      | _ => exact hcons _

end Stmts

/-- Blocks are viable. -/
theorem viable_block (hn : n ≤ fuel) : Viable n Anywhere (fun i => block (i + fuel)) IsBlock := by
  induction fuel generalizing n with
  | zero => exact .none hn IsBlock.exists
  | succ fuel ih =>
      have hblock := ih (show n - 1 ≤ fuel by omega)
      have hfuel : n - 1 ≤ fuel + 1 := by omega
      have hsound := fun i => sound_stmt (sound_block (i + fuel)) (i + (fuel + 1))
      have hstmt := viable_stmt (fun i => sound_block (i + fuel)) hblock hfuel
      have hstmts := viable_stmts hsound hstmt le_rfl hfuel
      apply Viable.expect
      intro opening
      refine hstmts.bindReads (fun i => reads_stmts (hsound i) _) (fun _ _ => List.nil_prefix) ?_
      intro ks stmts hstmts
      suffices hclose : Viable _ (At (.mark .rbrace)) _ _ from
        hclose.weaken fun c hc => c.kind_eq_of_ahead hc
      exact .advance fun closing => .pure (.mk _ hstmts)

/-! ### Callables and programs -/

/-- Callables are viable. -/
theorem viable_callable (hn : n ≤ fuel) :
    Viable n Anywhere (fun i => callable (i + fuel)) IsCallable := by
  have hsound := fun i => sound_parameter (i + fuel)
  refine .expect fun start => .identifier fun name _ => .expect fun opening => ?_
  have hfuel : n - 1 - 1 - 1 ≤ fuel := by omega
  have hparams := Viable.sepList (.mark .rparen) hsound (viable_parameter hfuel) hfuel
  apply hparams.andThen (fun i => Reads.sepList _ (hsound i) _)
  intro pks list hlist
  apply Viable.expect
  intro closing
  have hblock := viable_block (show n - 1 - 1 - 1 - pks.length - 1 ≤ fuel by omega)
  exact hblock.andReturn (fun i => sound_block _) fun _ body hbody => .mk name _ (.group hlist _) hbody

/-- Rows of callables up to the end of the text are viable if callables are. -/
theorem viable_callables {callable : Nat → Parser Callable} (hsound : ∀ i, Sound (callable i) IsCallable)
    (hcallable : Viable n Anywhere callable IsCallable) {m loop : Nat} (hm : m ≤ n) (hloop : m ≤ loop) :
    Viable m Anywhere (fun i => callables (callable i) (i + loop)) IsCallables := by
  induction loop generalizing m with
  | zero => exact .none hloop ⟨[], [], List.not_mem_nil, .nil⟩
  | succ loop ih =>
      refine .ifAt (.pure .nil) ((hcallable.mono hm).andThen hsound fun ks c hc => ?_)
      have hpos : 0 < ks.length := by
        cases hc
        exact Nat.succ_pos _
      have hmore := ih (show m - ks.length ≤ n by omega) (by omega)
      exact hmore.andReturn (fun i => (sound_callables (hsound i) _).untold) fun _ cs hcs => .cons hc hcs

/-- Programs are viable: where parsing one stops, other tokens would have completed it. -/
theorem viable_program (hn : n ≤ fuel) : Viable n Anywhere (fun i => program (i + fuel)) IsProgram := by
  have hsound := fun i => sound_callable (i + fuel)
  have hcallables := viable_callables hsound (viable_callable hn) le_rfl hn
  exact hcallables.andReturn (fun i => (sound_callables (hsound i) _).untold) fun _ cs hcs => hcs

/-- What is followed by the end of the text stops at the first token after it. -/
theorem viable_only {α : Type} {q : Nat → Parser α} {R : List TokenKind → α → Prop}
    (hsound : ∀ i, Sound (q i) R) (hq : Viable n Anywhere q R) :
    Viable n Anywhere (fun i => do let a ← q i; finished; return a) R := by
  apply hq.andThen hsound
  intro ks a ha
  have hfinished : Viable (n - ks.length) Anywhere (fun _ => finished) fun ks _ => ks = [] :=
    .ifAt (.pure rfl) (.fail _ ⟨[], (), List.not_mem_nil, rfl⟩)
  refine hfinished.andThen (fun _ => sound_finished.untold) fun ks' _ hks' => .pure ?_
  rw [hks', List.append_nil, List.append_nil]
  exact ha

end

end Freshen.Grammar
