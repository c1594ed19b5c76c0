import Mathlib
import Freshen.Proofs.Grammar.Complete.Program
import Freshen.Proofs.Grammar.Soundness
import Freshen.Proofs.Grammar.Spelled
import Freshen.Proofs.Layout.Derives
import Freshen.Proofs.Layout.Settles

/-!
# Printing and parsing

What is parsed from a text can be written down, and what can be written down is parsed back from the
text that is printed for it, up to spans.

**Key results.** `Program.spellable_of_parse`, `Program.parse_format`, and the same of callables and
expressions; `parse_format_of_parse`: a parsed tree is parsed back from its own text.
-/

namespace Freshen

open Grammar Piece

namespace Parser

variable {α : Type} {p : Nat → Parser α}

/-- What a rule makes of a text is derived from readable tokens. -/
theorem derives_of_onText {R : List TokenKind → α → Prop} {source : String} {a : α}
    (hp : ∀ fuel, Reads [] (p fuel) R [.eof]) (h : onText p source = .ok a) :
    ∃ ks, AllReadable ks ∧ R ks a := by
  obtain ⟨tokens, htokens, h⟩ := onText_eq_ok_iff.1 h
  obtain ⟨ks, hks, hreadable⟩ := readable_of_tokensFrom htokens
  exact ⟨ks, hreadable, derives_of_onTokens hp hks (fun heof => hreadable _ heof) h⟩

/-- Legible pieces are parsed as what a rule makes of their tokens, up to spans. -/
theorem onText_render {g : α → α} {pieces : List Piece} {a : α} (hlegible : Legible pieces)
    (hp : ∀ fuel, Natural (fun _ => .nowhere) (p fuel) g (p fuel))
    (hrun : ∀ {fuel}, (tokens pieces).length < fuel →
      (p fuel).onKinds (tokens pieces ++ [.eof]) = .ok (a, .bare [.eof])) :
    ∃ b, onText p (render pieces) = .ok b ∧ g b = a := by
  obtain ⟨ts, hts, hkinds⟩ := hlegible.tokenize_render
  have hlength : ts.length = (tokens pieces).length + 1 := by
    simpa using congrArg List.length hkinds
  obtain ⟨b, hb, hg⟩ := onTokens_of_onKinds hp
    (show (p (ts.length + 1)).onKinds (ts.map Token.kind) = _ from
      hkinds ▸ hrun (show (tokens pieces).length < ts.length + 1 by omega))
  exact ⟨b, by rw [onText, hts]; exact hb, hg⟩

end Parser

/-! ### What is parsed can be written down -/

/-- What is parsed as a program can be written down. -/
theorem Program.spellable_of_parse {source : String} {m : Program} (h : parse source = .ok m) :
    m.Spellable IsIdentifier := by
  obtain ⟨ks, hks, hm⟩ := Parser.derives_of_onText sound_program h
  exact hm.spellable hks

/-- What is parsed as a callable can be written down. -/
theorem Callable.spellable_of_parse {source : String} {c : Callable} (h : parse source = .ok c) :
    c.Spellable IsIdentifier := by
  obtain ⟨ks, hks, hc⟩ := Parser.derives_of_onText (fun fuel => sound_only (sound_callable fuel)) h
  exact hc.spellable hks

/-- What is parsed as an expression can be written down. -/
theorem Expr.spellable_of_parse {source : String} {e : Expr} (h : parse source = .ok e) :
    e.Spellable IsIdentifier := by
  obtain ⟨ks, hks, he⟩ := Parser.derives_of_onText (fun fuel => sound_only (sound_expr fuel)) h
  exact he.spellable hks

/-! ### What can be written down is parsed back -/

/-- A program that can be written down is parsed back from its text. -/
theorem Program.parse_format {m : Program} (h : m.Spellable IsIdentifier) :
    ∃ m', parse m.format = .ok m' ∧ m'.withoutSpans = m.withoutSpans :=
  Parser.onText_render (m.settled h).legible (natural_program Span.coherent_nowhere)
    (m.derives h).completes

/-- A callable that can be written down is parsed back from its text. -/
theorem Callable.parse_format {c : Callable} (h : c.Spellable IsIdentifier) :
    ∃ c', parse c.format = .ok c' ∧ c'.withoutSpans = c.withoutSpans := by
  have hlegible := ((c.settled h).append Settled.nil.newline (.newline _)).legible
  refine Parser.onText_render hlegible (natural_onlyCallable Span.coherent_nowhere) ?_
  intro fuel hfuel
  simpa using (c.derives h).onlyCompletes (by simpa using hfuel)

/-- An expression that can be written down is parsed back from its text. -/
theorem Expr.parse_format {e : Expr} (h : e.Spellable IsIdentifier) :
    ∃ e', parse e.format = .ok e' ∧ e'.withoutSpans = e.withoutSpans :=
  Parser.onText_render (e.settled h).legible (natural_onlyExpr Span.coherent_nowhere)
    (e.derives_one h).onlyCompletes

/-- A parsed tree is parsed back, up to spans, from the text that is printed for it: a program, a
callable or an expression. -/
theorem parse_format_of_parse :
    (∀ source m, Program.parse source = .ok m →
      ∃ m', Program.parse m.format = .ok m' ∧ m'.withoutSpans = m.withoutSpans) ∧
    (∀ source c, Callable.parse source = .ok c →
      ∃ c', Callable.parse c.format = .ok c' ∧ c'.withoutSpans = c.withoutSpans) ∧
    (∀ source e, Expr.parse source = .ok e →
      ∃ e', Expr.parse e.format = .ok e' ∧ e'.withoutSpans = e.withoutSpans) :=
  ⟨fun _ _ h => Program.parse_format (Program.spellable_of_parse h),
    fun _ _ h => Callable.parse_format (Callable.spellable_of_parse h),
    fun _ _ h => Expr.parse_format (Expr.spellable_of_parse h)⟩

/-- A program, a callable and an expression with parentheses, commas and blanks that are printed in
other ways. -/
theorem parse_format_of_parse_nested :
    (∃ m m', Program.parse "fn f((a),) \x7b let (x,)=(a,-(-b)%2); if (x) \x7b\x7d \x7d" = .ok m ∧
      m.format = "fn f(a) \x7b\n    let (x,) = (a, --b % 2);\n    if x \x7b\x7d\n\x7d\n" ∧
      Program.parse m.format = .ok m' ∧ m'.withoutSpans = m.withoutSpans) ∧
    (∃ c c', Callable.parse "fn f(_) \x7b return f::g::<T,>(\"\\n\"); \x7d" = .ok c ∧
      c.format = "fn f(_) \x7b\n    return f::g::<T>(\"\\n\");\n\x7d\n" ∧
      Callable.parse c.format = .ok c' ∧ c'.withoutSpans = c.withoutSpans) ∧
    ∃ e e', Expr.parse "(a-b)-(c-d) // none" = .ok e ∧ e.format = "a - b - (c - d)" ∧
      Expr.parse e.format = .ok e' ∧ e'.withoutSpans = e.withoutSpans := by
  obtain ⟨m, hm, hmtext⟩ := Except.exists_map_eq_ok (show (Program.parse
    "fn f((a),) \x7b let (x,)=(a,-(-b)%2); if (x) \x7b\x7d \x7d").map Program.format = .ok
    "fn f(a) \x7b\n    let (x,) = (a, --b % 2);\n    if x \x7b\x7d\n\x7d\n" by decide +kernel)
  obtain ⟨c, hc, hctext⟩ := Except.exists_map_eq_ok (show (Callable.parse
    "fn f(_) \x7b return f::g::<T,>(\"\\n\"); \x7d").map Callable.format = .ok
    "fn f(_) \x7b\n    return f::g::<T>(\"\\n\");\n\x7d\n" by decide +kernel)
  obtain ⟨e, he, hetext⟩ := Except.exists_map_eq_ok (show (Expr.parse
    "(a-b)-(c-d) // none").map Expr.format = .ok "a - b - (c - d)" by decide +kernel)
  obtain ⟨m', hm'⟩ := parse_format_of_parse.1 _ m hm
  obtain ⟨c', hc'⟩ := parse_format_of_parse.2.1 _ c hc
  obtain ⟨e', he'⟩ := parse_format_of_parse.2.2 _ e he
  exact ⟨⟨m, m', hm, hmtext, hm'⟩, ⟨c, c', hc, hctext, hc'⟩, e, e', he, hetext, he'⟩

end Freshen
