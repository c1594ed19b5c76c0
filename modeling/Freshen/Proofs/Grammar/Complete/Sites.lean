import Mathlib
import Freshen.Grammar.Program
import Freshen.Proofs.Grammar.Bare
import Freshen.Proofs.Tree.Spans

/-!
# Derived binding sites are parsed

On tokens that derive a type, a pattern or a parameter, followed by a token that cannot belong to
it, the parser reads exactly these tokens and answers with the tree, which stands nowhere like the
tokens.

- `TokenKind.opens`: the tokens that types, binding sites and expressions begin with.

**Key results.** `IsType.item`, `IsPattern.item`, `IsParam.item`.
-/

namespace Freshen

/-- The tokens that types, binding sites and expressions begin with. -/
def TokenKind.opens : TokenKind → Bool
  | int _ | str _ | ident _ => true
  | keyword w => w = .true_ ∨ w = .false_ ∨ w = .not
  | mark m => m = .lparen ∨ m = .lbracket ∨ m = .minus ∨ m = .underscore
  | eof => false

namespace Grammar

open Freshen.Parser
open Cursor (bare)

/-- The tokens begin with one that opens a type, a binding site or an expression. -/
def Opens (ks : List TokenKind) : Prop := ∃ k ks', ks = k :: ks' ∧ k.opens = true

/-- Tokens open what their beginning opens. -/
theorem Opens.append {ks : List TokenKind} (h : Opens ks) (ks' : List TokenKind) :
    Opens (ks ++ ks') := by
  obtain ⟨k, rest, rfl, hk⟩ := h
  exact ⟨k, rest ++ ks', rfl, hk⟩

/-- Tokens that open something begin with none that closes something. -/
theorem Opens.ne {ks : List TokenKind} (h : Opens ks) {close : TokenKind}
    (hclose : close.opens = false) : ∃ k ks', ks = k :: ks' ∧ k ≠ close := by
  obtain ⟨k, rest, rfl, hk⟩ := h
  exact ⟨k, rest, rfl, fun heq => absurd (heq ▸ hk) (by simp [hclose])⟩

/-- Tokens that open something are not empty. -/
theorem Opens.length_pos {ks : List TokenKind} (h : Opens ks) : 0 < ks.length := by
  obtain ⟨k, rest, rfl, -⟩ := h
  exact Nat.succ_pos _

/-! ### Lists of items -/

/-- Lists between commas carry over to what their items imply. -/
theorem SepBy.imp {α : Type} {R S : List TokenKind → α → Prop} (hRS : ∀ ks x, R ks x → S ks x)
    {ks : List TokenKind} {xs : List α} {comma : Bool} (h : SepBy R ks xs comma) :
    SepBy S ks xs comma := by
  induction h with
  | nil => exact .nil
  | last hx => exact .last (hRS _ _ hx)
  | cons hx _ ih => exact .cons (hRS _ _ hx) ih

/-- Items have at most as many tokens as the list. -/
theorem SepBy.bounded {α : Type} {R : List TokenKind → α → Prop} {ks : List TokenKind} {xs : List α}
    {comma : Bool} (h : SepBy R ks xs comma) :
    SepBy (fun ks' x => ks'.length ≤ ks.length ∧ R ks' x) ks xs comma := by
  induction h with
  | nil => exact .nil
  | last hx => exact .last ⟨le_rfl, hx⟩
  | cons hx _ ih =>
      refine .cons ⟨by simp, hx⟩ (ih.imp fun ks' x hx' => ⟨?_, hx'.2⟩)
      exact hx'.1.trans (by simp; omega)

/-- The tokens are those of an item: they open one, and given as much fuel as there are tokens, the
rule `p` reads them and answers with `x` without spans. -/
def IsItem {α : Type} (p : Nat → Parser α) (May : List TokenKind → Prop) (blot : α → α)
    (ks : List TokenKind) (x : α) : Prop :=
  Opens ks ∧ ∀ fuel, ks.length ≤ fuel → Completes (p fuel) May ks (blot x)

/-- An item has a token, so that a rule that is given its fuel has some. -/
theorem IsItem.of_succ {α : Type} {p : Nat → Parser α} {May : List TokenKind → Prop} {blot : α → α}
    {ks : List TokenKind} {x : α} (hopens : Opens ks)
    (h : ∀ fuel, ks.length ≤ fuel + 1 → Completes (p (fuel + 1)) May ks (blot x)) :
    IsItem p May blot ks x := by
  refine ⟨hopens, ?_⟩
  rintro (_ | fuel) hfuel
  · exact absurd hfuel hopens.length_pos.not_ge
  · exact h fuel hfuel

/-- Up to a closing mark that ends an item, the rule for lists reads the items and leaves the mark. -/
theorem onKinds_items {α : Type} {p : Nat → Parser α} {May : List TokenKind → Prop} {blot : α → α}
    {close : TokenKind} {ks : List TokenKind} {xs : List α} {comma : Bool}
    (h : SepBy (IsItem p May blot) ks xs comma) (hopens : close.opens = false)
    (hclose : close ≠ .mark .comma) (hcomma : ∀ rest, May (.mark .comma :: rest))
    {rest : List TokenKind} (hrest : May (close :: rest)) {fuel loop : Nat} (hfuel : ks.length ≤ fuel)
    (hloop : ks.length < loop) :
    (sepList close (p fuel) loop).onKinds (ks ++ close :: rest) =
      .ok ((xs.map blot, comma), bare (close :: rest)) := by
  refine onKinds_sepList hclose hcomma hrest (h.bounded.imp fun ks' x hx => ?_) hloop
  exact ⟨hx.2.1.ne hopens, hx.2.2 fuel (hx.1.trans hfuel)⟩

/-! ### Types and binding sites -/

/-- What may follow a type or a binding site: neither `<` nor `:`. -/
def EndsSite (rest : List TokenKind) : Prop :=
  ∃ k rest', rest = k :: rest' ∧ k ≠ .mark .lt ∧ k ≠ .mark .colon

/-- A list between parentheses reads its items. -/
theorem onKinds_siteItems {α : Type} {p : Nat → Parser α} {blot : α → α} {ks : List TokenKind}
    {items : List α} {comma : Bool} (h : SepBy (IsItem p EndsSite blot) ks items comma) {fuel : Nat}
    (hfuel : ks.length ≤ fuel) (rest : List TokenKind) :
    (sepList (.mark .rparen) (p fuel) (fuel + 1)).onKinds (ks ++ .mark .rparen :: rest) =
      .ok ((items.map blot, comma), bare (.mark .rparen :: rest)) := by
  refine onKinds_items h rfl ?_ (fun _ => ?_) ?_ hfuel (Nat.lt_succ_of_le hfuel)
  · nofun
  · exact ⟨_, _, rfl, nofun, nofun⟩
  · exact ⟨_, _, rfl, nofun, nofun⟩

/-- Items between parentheses are an item, of a rule that reads a list after an opening parenthesis. -/
theorem IsItem.group {α : Type} {p : Nat → Parser α} {blot : α → α} {ks : List TokenKind}
    {items : List α} {comma : Bool} {x : α} (make : List α → Bool → Span → α)
    (hitems : SepBy (IsItem p EndsSite blot) ks items comma)
    (hread : ∀ fuel rest, (p (fuel + 1)).onKinds (.mark .lparen :: rest) =
      (do
        let opening ← advance
        let (items, comma) ← sepList (.mark .rparen) (p fuel) (fuel + 1)
        let closing ← expect (.mark .rparen)
        return make items comma (opening.merge closing) : Parser α).onKinds (.mark .lparen :: rest))
    (hmake : make (items.map blot) comma .nowhere = blot x) :
    IsItem p EndsSite blot (.mark .lparen :: (ks ++ [.mark .rparen])) x := by
  refine .of_succ ⟨_, _, rfl, rfl⟩ fun fuel hfuel rest _ => ?_
  have hrun := onKinds_siteItems hitems (show ks.length ≤ fuel by simp at hfuel; omega) rest
  simp [hread, onKinds_bind hrun, ← hmake, -bind_pure_comp]

/-- The tokens of a type as an item. -/
abbrev IsTypeItem : List TokenKind → TypeExpr → Prop := IsItem type EndsSite TypeExpr.withoutSpans

/-- Type arguments are read with their closing bracket. -/
theorem onKinds_typeArgs {ks : List TokenKind} {types : List TypeExpr} {comma : Bool}
    (h : SepBy IsTypeItem ks types comma) {fuel : Nat} (hfuel : ks.length ≤ fuel)
    (rest : List TokenKind) :
    (typeArgs (type fuel) (fuel + 1)).onKinds (ks ++ .mark .gt :: rest) =
      .ok (TypeExpr.mapSpansList (fun _ => .nowhere) types, bare rest) := by
  have hopens : (TokenKind.mark .gt).opens = false := rfl
  have hrun := onKinds_items h hopens nofun (fun _ => ⟨_, _, rfl, nofun, nofun⟩)
    ⟨_, rest, rfl, nofun, nofun⟩ hfuel (Nat.lt_succ_of_le hfuel)
  rw [TypeExpr.mapSpansList_eq_map]
  simp [typeArgs, onKinds_bind hrun, -bind_pure_comp]

mutual

/-- A type is read as an item of a list. -/
theorem IsType.item {ks : List TokenKind} {t : TypeExpr} : IsType ks t → IsTypeItem ks t
  | .named name span => by
      refine .of_succ ⟨_, _, rfl, rfl⟩ ?_
      rintro fuel - rest ⟨k, rest, rfl, hlt, -⟩
      simp [type, hlt, TypeExpr.mapSpans, TypeExpr.mapSpansList, -bind_pure_comp]
  | .applied name span h => by
      have hitems := SepBy.typeItems h
      refine .of_succ ⟨_, _, rfl, rfl⟩ fun fuel hfuel rest _ => ?_
      have hrun := onKinds_typeArgs hitems (show _ ≤ fuel by simp at hfuel; omega) rest
      simp [type, TypeExpr.mapSpans, onKinds_bind hrun, -bind_pure_comp]
  | .tuple span h => by
      refine .group (fun items _ span => .tuple items span) (SepBy.typeItems h) (fun fuel rest => ?_) ?_
      · rw [type, onKinds_peek]
      · rw [TypeExpr.withoutSpans, TypeExpr.mapSpans, TypeExpr.mapSpansList_eq_map]
  | .array span h => by
      have helem := IsType.item h
      refine .of_succ ⟨_, _, rfl, rfl⟩ fun fuel hfuel rest _ => ?_
      have hrun := helem.2 fuel (by simp at hfuel; omega) (.mark .rbracket :: rest)
        ⟨_, _, rfl, nofun, nofun⟩
      simp [type, TypeExpr.mapSpans, onKinds_bind hrun, -bind_pure_comp]

/-- Types between commas are read as the items of a list. -/
theorem SepBy.typeItems {ks : List TokenKind} {types : List TypeExpr} {comma : Bool} :
    SepBy IsType ks types comma → SepBy IsTypeItem ks types comma
  | .nil => .nil
  | .last h => .last (IsType.item h)
  | .cons h hs => .cons (IsType.item h) (SepBy.typeItems hs)

end

/-- The name of a binder, which is next, is read with its annotation. -/
theorem IsBinder.completes {ks : List TokenKind} {b : Binder} (h : IsBinder ks b) {fuel : Nat}
    (hfuel : ks.length ≤ fuel) :
    Completes (binder b.name fuel) EndsSite ks (b.mapSpans fun _ => .nowhere) := by
  rintro rest ⟨k, rest, rfl, hlt, hcolon⟩
  obtain ⟨name, span, _ | htype⟩ := h
  · simp [binder, annotation, hcolon, Binder.mapSpans, -bind_pure_comp]
  · rename_i ks type
    have hrun := htype.item.2 fuel (by simp at hfuel; omega) _ ⟨k, rest, rfl, hlt, hcolon⟩
    simp [binder, annotation, onKinds_bind hrun, Binder.mapSpans, TypeExpr.span_mapSpans,
      -bind_pure_comp]

/-- A binding site begins with a token that opens one. -/
theorem IsBinder.opens {ks : List TokenKind} {b : Binder} (h : IsBinder ks b) : Opens ks := by
  cases h
  exact ⟨_, _, rfl, rfl⟩

/-- Parentheses make a pattern of several, if a single one has a comma after it. -/
theorem groupPatterns_eq_tuple {items : List Pattern} {comma : Bool} {span : Span}
    (h : items.length = 1 → comma = true) : groupPatterns items comma span = .tuple items span := by
  unfold groupPatterns
  split
  next => exact absurd (h rfl) Bool.false_ne_true
  next => rfl

/-- The tokens of a pattern as an item. -/
abbrev IsPatternItem : List TokenKind → Pattern → Prop :=
  IsItem pattern EndsSite Pattern.withoutSpans

mutual

/-- A pattern is read as an item of a list. -/
theorem IsPattern.item {ks : List TokenKind} {p : Pattern} : IsPattern ks p → IsPatternItem ks p
  | .binder h => by
      refine .of_succ h.opens fun fuel hfuel rest hrest => ?_
      have hrun := h.completes hfuel rest hrest
      obtain ⟨name, span, h⟩ := h
      rw [List.cons_append] at hrun ⊢
      simp [pattern, onKinds_bind hrun, Pattern.mapSpans, -bind_pure_comp]
  | .discard span => by
      refine .of_succ ⟨_, _, rfl, rfl⟩ fun fuel _ rest _ => ?_
      simp [pattern, Pattern.mapSpans, -bind_pure_comp]
  | .paren h => by
      have hitems : SepBy IsPatternItem _ _ _ := .last (IsPattern.item h)
      refine .group groupPatterns hitems (fun fuel rest => ?_) rfl
      rw [pattern, onKinds_peek]
  | .tuple span h hcomma => by
      refine .group groupPatterns (SepBy.patternItems h) (fun fuel rest => ?_) ?_
      · rw [pattern, onKinds_peek]
      · rw [Pattern.withoutSpans, Pattern.mapSpans, Pattern.mapSpansList_eq_map,
          groupPatterns_eq_tuple (by simpa using hcomma)]

/-- Patterns between commas are read as the items of a list. -/
theorem SepBy.patternItems {ks : List TokenKind} {items : List Pattern} {comma : Bool} :
    SepBy IsPattern ks items comma → SepBy IsPatternItem ks items comma
  | .nil => .nil
  | .last h => .last (IsPattern.item h)
  | .cons h hs => .cons (IsPattern.item h) (SepBy.patternItems hs)

end

/-- Parentheses make parameters of several, unless there is a single one. -/
theorem groupParams_eq_tuple {items : List Params} {span : Span} (h : items.length ≠ 1) :
    groupParams items span = .tuple items span := by
  unfold groupParams
  split
  next => exact absurd rfl h
  next => rfl

/-- The tokens of a parameter as an item. -/
abbrev IsParamItem : List TokenKind → Params → Prop :=
  IsItem parameter EndsSite Params.withoutSpans

mutual

/-- A parameter is read as an item of a list. -/
theorem IsParam.item {ks : List TokenKind} {p : Params} : IsParam ks p → IsParamItem ks p
  | .binder h => by
      refine .of_succ h.opens fun fuel hfuel rest hrest => ?_
      have hrun := h.completes hfuel rest hrest
      obtain ⟨name, span, h⟩ := h
      rw [List.cons_append] at hrun ⊢
      simp [parameter, onKinds_bind hrun, Params.mapSpans, -bind_pure_comp]
  | .unnamed span => by
      refine .of_succ ⟨_, _, rfl, rfl⟩ fun fuel _ rest _ => ?_
      simp [parameter, Params.mapSpans, -bind_pure_comp]
  | .paren h => by
      refine .group (fun items _ => groupParams items) (SepBy.paramItems h) (fun fuel rest => ?_) rfl
      rw [parameter, onKinds_peek]
  | .tuple span h hlength => by
      refine .group (fun items _ => groupParams items) (SepBy.paramItems h) (fun fuel rest => ?_) ?_
      · rw [parameter, onKinds_peek]
      · rw [Params.withoutSpans, Params.mapSpans, Params.mapSpansList_eq_map,
          groupParams_eq_tuple (by simpa using hlength)]

/-- Parameters between commas are read as the items of a list. -/
theorem SepBy.paramItems {ks : List TokenKind} {items : List Params} {comma : Bool} :
    SepBy IsParam ks items comma → SepBy IsParamItem ks items comma
  | .nil => .nil
  | .last h => .last (IsParam.item h)
  | .cons h hs => .cons (IsParam.item h) (SepBy.paramItems hs)

end

end Grammar

end Freshen
