import Mathlib
import Freshen.Proofs.Grammar.Complete.Sites

/-!
# Derived expressions are parsed

Precedence climbing reads an operand and then, as long as an operator binds tight enough, goes on
with it. What is derived at a level is thus not read at one go: the operand of the parse may be a
part of the leftmost operand only.

- `Climbs`: reading on from what is derived at a level comes to the same as reading it and then
  going on.

**Key results.** `IsExpr.climbs`, `onKinds_expr`.
-/

namespace Freshen

namespace Grammar

open Freshen.Parser
open Cursor (bare)

/-! ### Paths -/

/-- What may follow a path: anything but `::`. -/
def EndsPath (rest : List TokenKind) : Prop := ∃ k rest', rest = k :: rest' ∧ k ≠ .mark .doubleColon

/-- The rule for paths reads what comes after the first name, if what follows ends the path. -/
theorem IsPathTail.onKinds {ks : List TokenKind} {names : List Name}
    {args : Option (List TypeExpr)} (h : IsPathTail ks names args) :
    ∀ {fuel : Nat}, ks.length < fuel → ∀ {rest : List TokenKind}, EndsPath rest →
      (segments fuel).onKinds (ks ++ rest) =
        .ok ((names, args.map (TypeExpr.mapSpansList fun _ => .nowhere)), bare rest) := by
  induction h with
  | done =>
      rintro (_ | fuel) hfuel rest ⟨k, rest, rfl, hk⟩
      · exact absurd hfuel (Nat.not_lt_zero _)
      · simp [segments, hk]
  | segment name _ ih =>
      rintro (_ | fuel) hfuel rest hrest
      · exact absurd hfuel (Nat.not_lt_zero _)
      · have hrun := ih (show _ < fuel by simp at hfuel; omega) hrest
        simp [segments, onKinds_bind hrun, -bind_pure_comp]
  | args h =>
      rintro (_ | fuel) hfuel rest -
      · exact absurd hfuel (Nat.not_lt_zero _)
      · have hrun := onKinds_typeArgs (SepBy.typeItems h) (show _ ≤ fuel by simp at hfuel; omega) rest
        simp [segments, onKinds_bind hrun, -bind_pure_comp]

/-! ### Expressions -/

/-- What may follow an expression of a level: no call, index or path goes on, and a binary operator
does not bind tighter than the level. -/
def EndsExpr (level : Nat) (rest : List TokenKind) : Prop :=
  ∃ k rest', rest = k :: rest' ∧ k ≠ .mark .lparen ∧ k ≠ .mark .lbracket ∧ k ≠ .mark .doubleColon ∧
    ∀ op, binaryOp? k = some op → op.precedence ≤ level

/-- What may follow an expression may follow one that binds tighter. -/
theorem EndsExpr.mono {level level' : Nat} {rest : List TokenKind} (h : EndsExpr level rest)
    (hle : level ≤ level') : EndsExpr level' rest := by
  obtain ⟨k, rest', rfl, hparen, hbracket, hcolons, hop⟩ := h
  exact ⟨k, rest', rfl, hparen, hbracket, hcolons, fun op hk => (hop op hk).trans hle⟩

/-- What may follow an expression may follow an operand. -/
theorem EndsExpr.unary {level : Nat} {rest : List TokenKind} (h : EndsExpr level rest) :
    EndsExpr Precedence.unary rest := by
  obtain ⟨k, rest', rfl, hparen, hbracket, hcolons, -⟩ := h
  exact ⟨k, rest', rfl, hparen, hbracket, hcolons, fun op _ => op.precedence_lt_unary.le⟩

/-- What may follow an expression may follow a path. -/
theorem EndsExpr.endsPath {level : Nat} {rest : List TokenKind} (h : EndsExpr level rest) :
    EndsPath rest := by
  obtain ⟨k, rest', rfl, -, -, hcolons, -⟩ := h
  exact ⟨k, rest', rfl, hcolons⟩

/-- A token that is no operator, and with which no call, index or path goes on, ends every expression. -/
theorem EndsExpr.of_none {level : Nat} {k : TokenKind} (hnone : binaryOp? k = none)
    (hparen : k ≠ .mark .lparen) (hbracket : k ≠ .mark .lbracket) (hcolons : k ≠ .mark .doubleColon)
    (rest : List TokenKind) : EndsExpr level (k :: rest) :=
  ⟨k, rest, rfl, hparen, hbracket, hcolons, fun _ hop => absurd (hnone.symm.trans hop) nofun⟩

/-- An operator ends what binds at least as tight. -/
theorem EndsExpr.of_some {k : TokenKind} {op : BinaryOp} (hk : binaryOp? k = some op)
    (rest : List TokenKind) : EndsExpr op.precedence (k :: rest) := by
  refine ⟨k, rest, rfl, ?_, ?_, ?_, fun op' hop' => ?_⟩
  · rintro rfl
    exact absurd hk nofun
  · rintro rfl
    exact absurd hk nofun
  · rintro rfl
    exact absurd hk nofun
  · rw [Option.some.inj (hk.symm.trans hop')]

section Climbing

variable {level : Nat} {ks ks' : List TokenKind} {e : Expr}

/-- `e` is read as a primary expression. -/
def ReadsAtom (ks : List TokenKind) (e : Expr) : Prop :=
  ∀ {fuel loop : Nat}, ks.length ≤ fuel + 1 → ks.length ≤ loop → ∀ {rest : List TokenKind},
    EndsPath rest → (primary (exprAt fuel 1) loop).onKinds (ks ++ rest) = .ok (e.withoutSpans, bare rest)

/-- `e` is read as a primary expression with calls and indexing, after which more of these may
follow. -/
def ReadsPostfixed (ks : List TokenKind) (e : Expr) : Prop :=
  ∀ {fuel loop : Nat}, ks.length ≤ fuel + 1 → ks.length ≤ loop → ∀ {rest : List TokenKind},
    EndsPath rest → ∃ left, loop < left + ks.length ∧
      (postfixed (exprAt fuel 1) loop).onKinds (ks ++ rest) =
        (applications (exprAt fuel 1) left e.withoutSpans).onKinds rest

/-- `e` is read as an operand with its prefix operators. -/
def ReadsUnary (ks : List TokenKind) (e : Expr) : Prop :=
  ∀ {fuel loop : Nat}, ks.length ≤ fuel + 1 → ks.length ≤ loop → ∀ {rest : List TokenKind},
    EndsExpr Precedence.unary rest →
      (unary (exprAt fuel 1) loop).onKinds (ks ++ rest) = .ok (e.withoutSpans, bare rest)

/-- `e` is read as operands with binary operators of a level, after which more of these may follow. -/
def ReadsOperators (level : Nat) (ks : List TokenKind) (e : Expr) : Prop :=
  ∀ {fuel least : Nat}, ks.length ≤ fuel + 1 → least ≤ level → ∀ {rest : List TokenKind},
    EndsExpr level rest → ∃ left, fuel + 1 < left + ks.length ∧
      (exprAt (fuel + 1) least).onKinds (ks ++ rest) =
        (operators (exprAt fuel) least left e.withoutSpans).onKinds rest

/-- How the tokens of an expression of a level are read: by each of the rules that come into question
for expressions that bind at least as tight as the level. -/
structure Climbs (level : Nat) (ks : List TokenKind) (e : Expr) : Prop where
  opens : Opens ks
  plain : Precedence.postfixed ≤ level → ∀ k ∈ ks.head?, unaryOp? k = none
  atom : Precedence.atom ≤ level → ReadsAtom ks e
  postfixed : Precedence.postfixed ≤ level → ReadsPostfixed ks e
  unary : Precedence.unary ≤ level → ReadsUnary ks e
  operators : ReadsOperators level ks e

/-- A primary expression is one to which no call or index is applied yet. -/
theorem ReadsAtom.postfixed (h : ReadsAtom ks e) (hopens : Opens ks) : ReadsPostfixed ks e := by
  intro fuel loop hfuel hloop rest hrest
  refine ⟨loop, Nat.lt_add_of_pos_right hopens.length_pos, ?_⟩
  rw [Grammar.postfixed, onKinds_bind (h hfuel hloop hrest)]

/-- Where no prefix operator comes first, calls and indexing make an operand. -/
theorem ReadsPostfixed.unary (h : ReadsPostfixed ks e) (hopens : Opens ks)
    (hplain : ∀ k ∈ ks.head?, unaryOp? k = none) : ReadsUnary ks e := by
  intro fuel loop hfuel hloop rest hrest
  obtain ⟨left, hleft, hrun⟩ := h hfuel hloop hrest.endsPath
  obtain ⟨k, ks, rfl, -⟩ := hopens
  obtain ⟨next, rest, rfl, hparen, hbracket, -⟩ := hrest
  obtain ⟨loop, rfl⟩ : ∃ n, loop = n + 1 := ⟨loop - 1, by simp at hloop; omega⟩
  obtain ⟨left, rfl⟩ : ∃ n, left = n + 1 := ⟨left - 1, by omega⟩
  rw [List.cons_append] at hrun ⊢
  rw [Grammar.unary, onKinds_peek, hplain k rfl]
  exact hrun.trans (by simp [applications, hparen, hbracket])

/-- An operand is the first of the operands of every level. -/
theorem ReadsUnary.operators (h : ReadsUnary ks e) (hopens : Opens ks) :
    ReadsOperators level ks e := by
  intro fuel least hfuel hleast rest hrest
  refine ⟨fuel + 1, Nat.lt_add_of_pos_right hopens.length_pos, ?_⟩
  rw [exprAt, onKinds_bind (h hfuel hfuel hrest.unary)]

/-- Primary expressions are read by all rules. -/
theorem ReadsAtom.climbs (h : ReadsAtom ks e) (hopens : Opens ks)
    (hplain : ∀ k ∈ ks.head?, unaryOp? k = none) : Climbs Precedence.atom ks e :=
  have hpostfixed : ReadsPostfixed ks e := h.postfixed hopens
  have hunary : ReadsUnary ks e := hpostfixed.unary hopens hplain
  ⟨hopens, fun _ => hplain, fun _ => h, fun _ => hpostfixed, fun _ => hunary, hunary.operators hopens⟩

/-- Calls and indexing are read by the rules from there on. -/
theorem ReadsPostfixed.climbs (h : ReadsPostfixed ks e) (hopens : Opens ks)
    (hplain : ∀ k ∈ ks.head?, unaryOp? k = none) : Climbs Precedence.postfixed ks e :=
  have hunary : ReadsUnary ks e := h.unary hopens hplain
  ⟨hopens, fun _ => hplain, fun hlevel => absurd hlevel (by decide), fun _ => h, fun _ => hunary,
    hunary.operators hopens⟩

/-- Operands with prefix operators are read by the rules from there on. -/
theorem ReadsUnary.climbs (h : ReadsUnary ks e) (hopens : Opens ks) : Climbs Precedence.unary ks e :=
  ⟨hopens, fun hlevel => absurd hlevel (by decide), fun hlevel => absurd hlevel (by decide),
    fun hlevel => absurd hlevel (by decide), fun _ => h, h.operators hopens⟩

/-- What is read at a level is read at the next looser one. -/
theorem Climbs.tighter (h : Climbs (level + 1) ks e) : Climbs level ks e where
  opens := h.opens
  plain hlevel := h.plain (hlevel.trans (Nat.le_succ _))
  atom hlevel := h.atom (hlevel.trans (Nat.le_succ _))
  postfixed hlevel := h.postfixed (hlevel.trans (Nat.le_succ _))
  unary hlevel := h.unary (hlevel.trans (Nat.le_succ _))
  operators hfuel hleast _ hrest :=
    h.operators hfuel (hleast.trans (Nat.le_succ _)) (hrest.mono (Nat.le_succ _))

/-- The rule for a level reads an expression of the level, where no operator that binds as tight follows. -/
theorem Climbs.onKinds_exprAt (h : Climbs (level + 1) ks e) {fuel : Nat} (hfuel : ks.length ≤ fuel + 1)
    {rest : List TokenKind} (hrest : EndsExpr level rest) :
    (exprAt (fuel + 1) (level + 1)).onKinds (ks ++ rest) = .ok (e.withoutSpans, bare rest) := by
  obtain ⟨left, hleft, hrun⟩ := h.operators hfuel le_rfl (hrest.mono (Nat.le_succ level))
  obtain ⟨left, rfl⟩ : ∃ n, left = n + 1 := ⟨left - 1, by omega⟩
  obtain ⟨next, rest, rfl, -, -, -, hop⟩ := hrest
  rw [hrun, Grammar.operators, onKinds_peek]
  cases hnext : binaryOp? next with
  | none => rfl
  | some op => simp [Nat.lt_succ_of_le (hop op hnext)]

/-- The tokens of an expression as an item. -/
abbrev IsExprItem : List TokenKind → Expr → Prop :=
  IsItem (exprAt · 1) (EndsExpr 0) Expr.withoutSpans

/-- An expression of the loosest level is read as an item of a list. -/
theorem Climbs.item (h : Climbs 1 ks e) : IsExprItem ks e :=
  .of_succ h.opens fun _ hfuel _ hrest => h.onKinds_exprAt hfuel hrest

/-! ### Expressions of each form -/

/-- A binary operator is read where its level is, with the same level to its left and a tighter one to its
right. -/
theorem Climbs.binary {op : BinaryOp} {k : TokenKind} {l r : Expr} {span : Span}
    (hk : binaryOp? k = some op) (hl : Climbs op.precedence ks l)
    (hr : Climbs (op.precedence + 1) ks' r) :
    Climbs op.precedence (ks ++ k :: ks') (.binary op l r span) where
  opens := hl.opens.append _
  plain hlevel := absurd hlevel (op.precedence_lt_unary.trans (Nat.lt_succ_self _)).not_ge
  atom hlevel :=
    absurd hlevel (op.precedence_lt_unary.trans (show Precedence.unary < Precedence.atom by decide)).not_ge
  postfixed hlevel := absurd hlevel (op.precedence_lt_unary.trans (Nat.lt_succ_self _)).not_ge
  unary hlevel := absurd hlevel op.precedence_lt_unary.not_ge
  operators := by
    intro fuel least hfuel hleast rest hrest
    simp only [List.length_append, List.length_cons] at hfuel
    have hne : k ≠ .eof := fun heof => absurd (heof ▸ hk) nofun
    obtain ⟨left, hleft, hrun⟩ := hl.operators (show ks.length ≤ fuel + 1 by omega) hleast
      (.of_some hk (ks' ++ rest))
    obtain ⟨left, rfl⟩ : ∃ n, left = n + 1 := ⟨left - 1, by omega⟩
    have hpos := hr.opens.length_pos
    obtain ⟨fuel, rfl⟩ : ∃ n, fuel = n + 1 := ⟨fuel - 1, by omega⟩
    have hoperand := hr.onKinds_exprAt (show ks'.length ≤ fuel + 1 by omega) hrest
    refine ⟨left, ?_, ?_⟩
    · simp only [List.length_append, List.length_cons]
      omega
    · rw [List.append_assoc, List.cons_append, hrun, Grammar.operators, onKinds_peek, hk]
      simp [hleast.not_gt, onKinds_advance hne, onKinds_bind hoperand, Expr.mapSpans,
        Expr.span_mapSpans]

/-- A binary operator of a level is read at that level. -/
theorem Climbs.binaryAt {level : Nat} {op : BinaryOp} {k : TokenKind} {l r : Expr} {span : Span}
    (hk : (k, op) ∈ operatorsAt level) (hl : Climbs level ks l) (hr : Climbs (level + 1) ks' r) :
    Climbs level (ks ++ k :: ks') (.binary op l r span) := by
  obtain ⟨hop, rfl⟩ := mem_operatorsAt.1 hk
  exact .binary hop hl hr

/-- A prefix operator in front of an operand is read as one operand. -/
theorem Climbs.prefixed {op : UnaryOp} {span : Span} (h : Climbs Precedence.unary ks e) :
    Climbs Precedence.unary (unaryToken op :: ks) (.unary op e span) := by
  have hopens : Opens (unaryToken op :: ks) := ⟨_, _, rfl, by cases op <;> rfl⟩
  have hop : unaryOp? (unaryToken op) = some op := by cases op <;> rfl
  have hne : unaryToken op ≠ .eof := by cases op <;> nofun
  refine ReadsUnary.climbs ?_ hopens
  rintro fuel (_ | loop) hfuel hloop rest hrest
  · exact absurd hloop (by simp)
  · have hrun := h.unary le_rfl ((Nat.le_succ _).trans hfuel) (Nat.le_of_succ_le_succ hloop) hrest
    rw [List.cons_append, Grammar.unary, onKinds_peek, hop]
    simp [onKinds_advance hne, onKinds_bind hrun, Expr.mapSpans, Expr.span_mapSpans,
      -bind_pure_comp]

/-- A list of expressions reads its items. -/
theorem onKinds_exprItems (close : TokenKind) (hopens : close.opens = false)
    (hnone : binaryOp? close = none) (hcomma : close ≠ .mark .comma) (hcolons : close ≠ .mark .doubleColon)
    {items : List Expr} {comma : Bool}
    (h : SepBy IsExprItem ks items comma) {fuel loop : Nat} (hfuel : ks.length ≤ fuel)
    (hloop : ks.length < loop) (rest : List TokenKind) :
    (sepList close (exprAt fuel 1) loop).onKinds (ks ++ close :: rest) =
      .ok ((Expr.mapSpansList (fun _ => .nowhere) items, comma), bare (close :: rest)) := by
  rw [Expr.mapSpansList_eq_map]
  refine onKinds_items h hopens hcomma (fun rest => ?_) ?_ hfuel hloop
  · exact .of_none (k := .mark .comma) rfl nofun nofun nofun rest
  refine .of_none hnone ?_ ?_ hcolons _ <;> rintro rfl <;> exact absurd hopens nofun

/-- In calls and indexing no prefix operator comes first. -/
theorem Climbs.plain_append (h : Climbs Precedence.postfixed ks e) (ks' : List TokenKind) :
    ∀ k ∈ (ks ++ ks').head?, unaryOp? k = none := by
  have hplain := h.plain le_rfl
  obtain ⟨k, ks, rfl, -⟩ := h.opens
  exact hplain

/-- Arguments after a callee are read as its call. -/
theorem Climbs.call {f : Expr} {args : List Expr} {comma : Bool} {span : Span}
    (hf : Climbs Precedence.postfixed ks f) (hargs : SepBy IsExprItem ks' args comma) :
    Climbs Precedence.postfixed (ks ++ .mark .lparen :: (ks' ++ [.mark .rparen]))
      (.call f args span) := by
  refine ReadsPostfixed.climbs ?_ (hf.opens.append _) (hf.plain_append _)
  intro fuel loop hfuel hloop rest hrest
  simp only [List.length_append, List.length_cons, List.length_nil] at hfuel hloop ⊢
  obtain ⟨left, hleft, hrun⟩ := hf.postfixed le_rfl (show ks.length ≤ fuel + 1 by omega)
    (show ks.length ≤ loop by omega)
    (show EndsPath (.mark .lparen :: (ks' ++ .mark .rparen :: rest)) from ⟨_, _, rfl, by decide⟩)
  obtain ⟨left, rfl⟩ : ∃ n, left = n + 1 := ⟨left - 1, by omega⟩
  have hitems := onKinds_exprItems (.mark .rparen) rfl rfl (by decide) (by decide) hargs
    (show ks'.length ≤ fuel by omega) (show ks'.length < left + 1 by omega) rest
  refine ⟨left, by omega, ?_⟩
  simp only [List.append_assoc, List.cons_append, List.nil_append]
  exact hrun.trans (by simp [applications, onKinds_bind hitems, Expr.mapSpans, Expr.span_mapSpans])

/-- An index after a base is read as its indexing. -/
theorem Climbs.index {b i : Expr} {span : Span} (hb : Climbs Precedence.postfixed ks b)
    (hi : IsExprItem ks' i) :
    Climbs Precedence.postfixed (ks ++ .mark .lbracket :: (ks' ++ [.mark .rbracket]))
      (.index b i span) := by
  refine ReadsPostfixed.climbs ?_ (hb.opens.append _) (hb.plain_append _)
  intro fuel loop hfuel hloop rest hrest
  simp only [List.length_append, List.length_cons, List.length_nil] at hfuel hloop ⊢
  obtain ⟨left, hleft, hrun⟩ := hb.postfixed le_rfl (show ks.length ≤ fuel + 1 by omega)
    (show ks.length ≤ loop by omega)
    (show EndsPath (.mark .lbracket :: (ks' ++ .mark .rbracket :: rest)) from ⟨_, _, rfl, by decide⟩)
  obtain ⟨left, rfl⟩ : ∃ n, left = n + 1 := ⟨left - 1, by omega⟩
  have hindex := hi.2 fuel (by omega) (.mark .rbracket :: rest)
    (.of_none (k := .mark .rbracket) rfl nofun nofun nofun rest)
  refine ⟨left, by omega, ?_⟩
  simp only [List.append_assoc, List.cons_append, List.nil_append]
  exact hrun.trans (by simp [applications, onKinds_bind hindex, Expr.mapSpans, Expr.span_mapSpans])

/-- A single token that stands for an expression. -/
theorem Climbs.single {k : TokenKind} {make : Span → Expr} (hopens : k.opens = true)
    (hplain : unaryOp? k = none)
    (h : ∀ fuel loop rest, (primary (exprAt fuel 1) loop).onKinds (k :: rest) =
      .ok (make .nowhere, bare rest))
    (hmap : ∀ span, (make span).withoutSpans = make .nowhere) (span : Span) :
    Climbs Precedence.atom [k] (make span) := by
  refine ReadsAtom.climbs ?_ ⟨_, _, rfl, hopens⟩ (by simp [hplain])
  intro fuel loop _ _ rest _
  rw [hmap]
  exact h fuel loop rest

/-- A name and the path after it are read as a reference. -/
theorem Climbs.ref {names : List Name} {args : Option (List TypeExpr)} {name : Name} {span : Span}
    (h : IsPathTail ks names args) :
    Climbs Precedence.atom (.ident name :: ks) (.ref (pathReference name names) args span) := by
  refine ReadsAtom.climbs ?_ ⟨_, _, rfl, rfl⟩ (by simp [unaryOp?])
  intro fuel loop hfuel hloop rest hrest
  have hrun := h.onKinds (Nat.lt_of_succ_le hloop) hrest
  rw [List.cons_append, primary, onKinds_peek]
  refine (onKinds_advance (k := .ident name) nofun _).trans ?_
  simp [onKinds_bind hrun, Expr.mapSpans, -bind_pure_comp]

/-- Items in parentheses: what the rule for groups makes of them. -/
theorem Climbs.group {items : List Expr} {comma : Bool} (h : SepBy IsExprItem ks items comma)
    (he : groupExprs (Expr.mapSpansList (fun _ => .nowhere) items) comma .nowhere = e.withoutSpans) :
    Climbs Precedence.atom (.mark .lparen :: (ks ++ [.mark .rparen])) e := by
  refine ReadsAtom.climbs ?_ ⟨_, _, rfl, rfl⟩ (by simp [unaryOp?])
  intro fuel loop hfuel hloop rest hrest
  simp only [List.length_append, List.length_cons, List.length_nil] at hfuel hloop
  have hitems := onKinds_exprItems (.mark .rparen) rfl rfl (by decide) (by decide) h
    (show ks.length ≤ fuel by omega) (show ks.length < loop by omega) rest
  rw [List.cons_append, primary, onKinds_peek]
  refine (onKinds_advance (k := .mark .lparen) (by decide) _).trans ?_
  simp [onKinds_bind hitems, he, -bind_pure_comp]

/-- Items between brackets are read as an array. -/
theorem Climbs.array {items : List Expr} {comma : Bool} {span : Span}
    (h : SepBy IsExprItem ks items comma) :
    Climbs Precedence.atom (.mark .lbracket :: (ks ++ [.mark .rbracket])) (.array items span) := by
  refine ReadsAtom.climbs ?_ ⟨_, _, rfl, rfl⟩ (by simp [unaryOp?])
  intro fuel loop hfuel hloop rest hrest
  simp only [List.length_append, List.length_cons, List.length_nil] at hfuel hloop
  have hitems := onKinds_exprItems (.mark .rbracket) rfl rfl (by decide) (by decide) h
    (show ks.length ≤ fuel by omega) (show ks.length < loop by omega) rest
  rw [List.cons_append, primary, onKinds_peek]
  refine (onKinds_advance (k := .mark .lbracket) (by decide) _).trans ?_
  simp [onKinds_bind hitems, Expr.mapSpans, -bind_pure_comp]

end Climbing

/-- Parentheses make a tuple, if a single item has a comma after it. -/
theorem groupExprs_eq_tuple {items : List Expr} {comma : Bool} {span : Span} (hne : items ≠ [])
    (h : items.length = 1 → comma = true) : groupExprs items comma span = .tuple items span := by
  unfold groupExprs
  split
  next => exact absurd rfl hne
  next => exact absurd (h rfl) Bool.false_ne_true
  next => rfl

mutual

/-- What is derived at a level is read by the rules for that level. -/
theorem IsExpr.climbs {level : Nat} {ks : List TokenKind} {e : Expr} :
    IsExpr level ks e → Climbs level ks e
  | .tighter h => (IsExpr.climbs h).tighter
  | .binary _ _ hk hl hr => .binaryAt hk (IsExpr.climbs hl) (IsExpr.climbs hr)
  | .unary _ _ h => (IsExpr.climbs h).prefixed
  | .call _ hf hargs => (IsExpr.climbs hf).call (SepBy.exprItems hargs)
  | .index _ hb hi => (IsExpr.climbs hb).index (IsExpr.climbs hi).item
  | .int value span => by
      refine Climbs.single rfl rfl (fun _ _ _ => ?_) (fun _ => rfl) span
      rw [primary, onKinds_peek]
      exact onKinds_advance (k := .int value) nofun _
  | .str value span => by
      refine Climbs.single rfl rfl (fun _ _ _ => ?_) (fun _ => rfl) span
      rw [primary, onKinds_peek]
      exact onKinds_advance (k := .str value) nofun _
  | .bool value span => by
      refine Climbs.single (by cases value <;> rfl) (by cases value <;> rfl) (fun _ _ _ => ?_)
        (fun _ => rfl) span
      rw [primary, onKinds_peek]
      cases value with
      | true => exact onKinds_advance (k := .keyword .true_) nofun _
      | false => exact onKinds_advance (k := .keyword .false_) nofun _
  | .unqualified _ _ h => .ref h
  | .qualified _ _ _ h => by
      rw [← pathReference_append]
      exact .ref h
  | .unit _ => .group .nil rfl
  | .paren h => .group (.last (IsExpr.climbs h).item) rfl
  | .tuple _ h hne hcomma => by
      refine .group (SepBy.exprItems h) ?_
      rw [Expr.mapSpansList_eq_map, groupExprs_eq_tuple (by simpa using hne) (by simpa using hcomma)]
      simp [Expr.mapSpans, Expr.mapSpansList_eq_map]
  | .array _ h => .array (SepBy.exprItems h)

/-- Expressions between commas are read as the items of a list. -/
theorem SepBy.exprItems {ks : List TokenKind} {items : List Expr} {comma : Bool} :
    SepBy (IsExpr 1) ks items comma → SepBy IsExprItem ks items comma
  | .nil => .nil
  | .last h => .last (IsExpr.climbs h).item
  | .cons h hs => .cons (IsExpr.climbs h).item (SepBy.exprItems hs)

end

/-- The tokens with which an expression goes on. -/
def goesOn : TokenKind → Bool
  | .mark .lparen | .mark .lbracket | .mark .doubleColon => true
  | k => (binaryOp? k).isSome

/-- The rule for expressions reads an expression in front of any token with which no expression goes on. -/
theorem onKinds_expr {ks : List TokenKind} {e : Expr} (h : IsExpr 1 ks e) {fuel : Nat}
    (hfuel : ks.length ≤ fuel) {k : TokenKind} (hk : goesOn k = false) (rest : List TokenKind) :
    (expr fuel).onKinds (ks ++ k :: rest) = .ok (e.withoutSpans, bare (k :: rest)) := by
  refine h.climbs.item.2 fuel hfuel _ (.of_none ?_ ?_ ?_ ?_ rest)
  · refine Option.eq_none_iff_forall_ne_some.2 fun op hop => ?_
    unfold goesOn at hk
    split at hk
    · exact absurd hk nofun
    · exact absurd hk nofun
    · exact absurd hk nofun
    · exact absurd hk (by simp [hop])
  all_goals
    rintro rfl
    exact absurd hk nofun

end Grammar

end Freshen
