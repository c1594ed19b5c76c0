import Mathlib
import Freshen.Proofs.Grammar.Complete.Program
import Freshen.Proofs.Grammar.Soundness
import Freshen.Proofs.Grammar.UpToSpans

/-!
# What the parser accepts

On tokens that end with the end of the text and have no other end in them, the parser accepts exactly
what the grammar derives, and answers with exactly the derived tree, up to spans.

- `Parser.onTokens_iff`: the statement for a rule that is sound and complete for a relation.

**Key results.** `ofTokens_iff_derives`: the statement for programs, callables and expressions.
-/

namespace Freshen

open Grammar

/-- A rule that is complete for a relation accepts tokens that are in it. -/
theorem Parser.onTokens_of_derives {α : Type} {p : Nat → Parser α} {blot : α → α}
    {R : List TokenKind → α → Prop}
    (hnatural : ∀ fuel, Natural (fun _ => .nowhere) (p fuel) blot (p fuel))
    (hcomplete : ∀ {ks a}, R ks a → ∀ {fuel}, ks.length < fuel →
      (p fuel).onKinds (ks ++ [.eof]) = .ok (blot a, .bare [.eof]))
    {tokens : List Token} {ks : List TokenKind} (hkinds : tokens.map Token.kind = ks ++ [.eof]) {a : α}
    (ha : R ks a) : ∃ b, onTokens p tokens = .ok b ∧ blot b = blot a := by
  -- there is one more token than in `ks`, which is fuel enough
  have hlength : tokens.length = ks.length + 1 := by simpa using congrArg List.length hkinds
  have hrun := hcomplete ha (show ks.length < tokens.length + 1 by omega)
  rw [← hkinds] at hrun
  exact onTokens_of_onKinds hnatural hrun

/-- A rule that is sound and complete for a relation that ignores spans accepts a token list as `a`, up
to spans, iff `a` and the tokens are in the relation. -/
theorem Parser.onTokens_iff {α : Type} {p : Nat → Parser α} {blot : α → α}
    {R : List TokenKind → α → Prop} (hsound : ∀ fuel, Reads [] (p fuel) R [.eof])
    (hnatural : ∀ fuel, Natural (fun _ => .nowhere) (p fuel) blot (p fuel))
    (hcomplete : ∀ {ks a}, R ks a → ∀ {fuel}, ks.length < fuel →
      (p fuel).onKinds (ks ++ [.eof]) = .ok (blot a, .bare [.eof]))
    (hspans : ∀ {ks a b}, R ks a → blot b = blot a → R ks b)
    {tokens : List Token} {ks : List TokenKind} (hkinds : tokens.map Token.kind = ks ++ [.eof])
    (heof : .eof ∉ ks) (a : α) : (∃ b, onTokens p tokens = .ok b ∧ blot b = blot a) ↔ R ks a := by
  constructor
  · rintro ⟨b, hb, hblot⟩
    exact hspans (derives_of_onTokens hsound hkinds heof hb) hblot.symm
  · intro ha
    exact onTokens_of_derives hnatural hcomplete hkinds ha

/-- **The parser accepts exactly its grammar, with exactly its trees.**  On tokens of the kinds `ks`
followed by the end of the text, a tree is parsed, up to spans, iff `ks` derive it. -/
theorem ofTokens_iff_derives {tokens : List Token} {ks : List TokenKind}
    (hkinds : tokens.map Token.kind = ks ++ [.eof]) (heof : .eof ∉ ks) :
    (∀ m : Program,
      (∃ m', Program.ofTokens tokens = .ok m' ∧ m'.withoutSpans = m.withoutSpans) ↔
        IsProgram ks m) ∧
    (∀ c : Callable,
      (∃ c', Callable.ofTokens tokens = .ok c' ∧ c'.withoutSpans = c.withoutSpans) ↔
        IsCallable ks c) ∧
    ∀ e : Expr,
      (∃ e', Expr.ofTokens tokens = .ok e' ∧ e'.withoutSpans = e.withoutSpans) ↔ IsExpr 1 ks e := by
  refine ⟨fun m => ?_, fun c => ?_, fun e => ?_⟩
  · exact Parser.onTokens_iff sound_program (natural_program Span.coherent_nowhere)
      IsProgram.completes IsProgram.of_withoutSpans hkinds heof m
  · exact Parser.onTokens_iff (fun fuel => sound_only (sound_callable fuel))
      (natural_onlyCallable Span.coherent_nowhere) IsCallable.onlyCompletes
      IsCallable.of_withoutSpans hkinds heof c
  · exact Parser.onTokens_iff (fun fuel => sound_only (sound_expr fuel))
      (natural_onlyExpr Span.coherent_nowhere) IsExpr.onlyCompletes IsExpr.of_withoutSpans hkinds
      heof e

/-- The tokens of `fn f((a),) \x7b return a - b - (c,); \x7d` derive a callable with one parameter that
returns `(a - b) - (c,)`, because this is what they are parsed as. -/
theorem ofTokens_iff_derives_subtraction :
    ∃ ks : List TokenKind,
      ks = [.keyword .fn, .ident "f", .mark .lparen, .mark .lparen, .ident "a", .mark .rparen,
        .mark .comma, .mark .rparen, .mark .lbrace, .keyword .return_, .ident "a", .mark .minus,
        .ident "b", .mark .minus, .mark .lparen, .ident "c", .mark .comma, .mark .rparen,
        .mark .semicolon, .mark .rbrace] ∧
      ((ks ++ [TokenKind.eof]).map (Token.mk · .nowhere)).map Token.kind = ks ++ [.eof] ∧
      .eof ∉ ks ∧
      IsCallable ks ⟨"f", .binder ⟨"a", none, .nowhere⟩, ⟨[.ret (some (.binary .sub
          (.binary .sub (.ref (.unqualified "a") none .nowhere)
            (.ref (.unqualified "b") none .nowhere) .nowhere)
          (.tuple [.ref (.unqualified "c") none .nowhere] .nowhere) .nowhere)) .nowhere],
        .nowhere⟩, .nowhere⟩ := by
  refine ⟨_, rfl, rfl, by decide, ?_⟩
  have hparse := fun ks hkinds =>
    @ofTokens_iff_derives ((ks ++ [TokenKind.eof]).map (Token.mk · .nowhere)) ks hkinds
  exact ((hparse _ rfl (by decide)).2.1 _).1 ⟨_, rfl, rfl⟩

end Freshen
