import Mathlib
import Freshen.Proofs.Command.Rename
import Freshen.Proofs.Grammar.Outcome
import Freshen.Proofs.Layout.Spans
import Freshen.Proofs.Rename.Spans
import Freshen.Proofs.Token.Padding

/-!
# Padded source texts

Blanks and comments beside a token change nothing but spans: not the tokens, not what the parser answers,
not the text that is printed for the program or for its renaming.

- `Command.format_of_parse`: what the command makes of a text that is parsed.
- `Program.format_rename_eq`: programs that are equal up to spans are renamed to programs of one text.

**Key result.** `same_of_pads`: a text and a padded one are the same to the lexer, the parser and the
commands.
-/

namespace Freshen

/-- Programs that are equal up to spans are renamed to programs that are printed as the same text. -/
theorem Program.format_rename_eq {p q p' q' : Program} (h : p.withoutSpans = q.withoutSpans)
    (hp : p.rename = .ok p') (hq : q.rename = .ok q') : p'.format = q'.format := by
  apply format_eq_of_withoutSpans
  have hp := rename_mapSpans (fun _ => .nowhere) hp
  have hq := rename_mapSpans (fun _ => .nowhere) hq
  rw [withoutSpans] at h
  rw [h, hq, Except.ok.injEq] at hp
  exact hp.symm

/-- Once its text is parsed the command succeeds, with the text of the program. -/
theorem Command.format_of_parse {source : String} {p : Program} (h : Program.parse source = .ok p)
    (path : String) : format path source = .ok p.format := by
  rw [format, load, h]
  rfl

/-- **Layout and comments do not matter.**  Let `source'` be a text with tokens, `source`, into which padding
was put beside tokens any number of times.  It has tokens of the same kinds; as a program, a callable and an
expression the parser answers on both texts with the same tree up to spans, or with an error in which the same
thing is expected and the same token is found; and if the text is a program, it is printed and renamed to the
same text. -/
theorem same_of_pads {source source' : String} {tokens : List Token}
    (htokens : tokenize source = .ok tokens) (h : Relation.ReflTransGen Pads source source') :
    (∃ tokens', tokenize source' = .ok tokens' ∧
      tokens'.map Token.kind = tokens.map Token.kind) ∧
    SameUpToSpans Program.withoutSpans (Program.parse source) (Program.parse source') ∧
    SameUpToSpans Callable.withoutSpans (Callable.parse source) (Callable.parse source') ∧
    SameUpToSpans Expr.withoutSpans (Expr.parse source) (Expr.parse source') ∧
    ∀ p, Program.parse source = .ok p → ∃ formatted renamed, ∀ path,
      (Command.format path source = .ok formatted ∧ Command.format path source' = .ok formatted) ∧
      ∀ checked apart, Command.rename path source checked apart = .ok renamed ∧
        Command.rename path source' checked apart = .ok renamed := by
  obtain ⟨tokens', htokens', hkinds⟩ := tokenize_of_pads h htokens
  have hprogram : SameUpToSpans Program.withoutSpans (Program.parse source) (Program.parse source') :=
    Parser.onText_sameUpToSpans (Grammar.natural_program Span.coherent_nowhere) htokens htokens'
      hkinds.symm
  refine ⟨⟨tokens', htokens', hkinds⟩, hprogram, ?callable, ?expr, ?commands⟩
  case callable =>
    exact Parser.onText_sameUpToSpans (Grammar.natural_onlyCallable Span.coherent_nowhere) htokens
      htokens' hkinds.symm
  case expr =>
    exact Parser.onText_sameUpToSpans (Grammar.natural_onlyExpr Span.coherent_nowhere) htokens
      htokens' hkinds.symm
  case commands =>
    intro p hp
    rw [hp] at hprogram
    obtain ⟨q, hq, hsame⟩ := hprogram.exists_ok
    obtain ⟨p', hp', -, hrename⟩ := Command.rename_of_parse hp
    obtain ⟨q', hq', -, hrename'⟩ := Command.rename_of_parse hq
    refine ⟨p.format, p'.format, fun path => ⟨⟨?_, ?_⟩, fun checked apart => ⟨?_, ?_⟩⟩⟩
    · exact Command.format_of_parse hp path
    · rw [Command.format_of_parse hq path, Program.format_eq_of_withoutSpans hsame]
    · exact hrename path checked apart
    · rw [hrename' path checked apart, Program.format_rename_eq hsame hp' hq']

/-- A comment behind the first word of a program. -/
theorem same_of_pads_comment : Pads "fn f() \x7b\x7d" "fn // é\n f() \x7b\x7d" ∧
    SameUpToSpans Program.withoutSpans (Program.parse "fn f() \x7b\x7d")
      (Program.parse "fn // é\n f() \x7b\x7d") := by
  have hpads : Pads "fn f() \x7b\x7d" "fn // é\n f() \x7b\x7d" := by
    refine ⟨['f', 'n'], [' ', '/', '/', ' ', 'é', '\n'], [' ', 'f', '(', ')', ' ', '\x7b', '\x7d'], ?_, ?_,
      rfl, rfl⟩
    · have hsize : "fn f() \x7b\x7d".utf8ByteSize < UInt32.size := by decide
      have hfirst : ∀ ts, (⟨.keyword .fn, ⟨0, 2⟩⟩ : Token) ∈ ⟨.keyword .fn, ⟨0, 2⟩⟩ :: ts :=
        fun _ => List.mem_cons_self
      exact besideToken_of_span hsize rfl rfl (hfirst _) (.inr rfl)
    · have hcomment : ['/', '/', ' ', 'é'] ∈ LexicalRule.comment.texts :=
        LexicalRule.mem_texts_comment.2 ⟨[' ', 'é'], rfl, by simp⟩
      exact ⟨.blank rfl (.comment hcomment .nil), ' ', rfl, rfl⟩
  exact ⟨hpads, (same_of_pads rfl (.single hpads)).2.1⟩

end Freshen
