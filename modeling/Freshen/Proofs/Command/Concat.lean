import Mathlib
import Freshen.Proofs.Command.Padding
import Freshen.Proofs.Grammar.SelfDelimiting
import Freshen.Proofs.Layout.Legible
import Freshen.Proofs.Token.Concat

/-!
# Programs one after the other

The text of a program, a line feed and the text of another one are the text of the callables of both,
even if the first text ends in a comment. Each stage goes along: the lexer starts anew after the line feed,
the parser stops a callable at its last token, callables are renamed one by one, and a blank line is printed
between two of them.

- `Callable.paragraphPieces_append`, `Program.format_append`: the layout of two lists of callables.
- `Program.rename_append`: their renaming.
- `Program.parse_line_feed`: the program of two texts with a line feed between them.

**Key result.** `compose_line_feed`: parsing, printing and renaming go along with putting texts one after
the other.
-/

namespace Freshen

/-! ### Layout and renaming -/

/-- Two groups of callables are laid out one after the other, with an empty line between them. -/
theorem Callable.paragraphPieces_append {cs ds : List Callable} (hcs : cs ≠ []) (hds : ds ≠ []) :
    paragraphPieces (cs ++ ds) = paragraphPieces cs ++ [.newline] ++ paragraphPieces ds := by
  induction cs with
  | nil => exact absurd rfl hcs
  | cons c cs ih =>
      cases cs with
      | nil =>
          obtain ⟨d, ds, rfl⟩ := List.exists_cons_of_ne_nil hds
          simp [paragraphPieces]
      | cons c' cs =>
          have hrest := ih (List.cons_ne_nil c' cs)
          simp only [List.cons_append, paragraphPieces, List.append_assoc] at hrest ⊢
          rw [hrest]

/-- Programs with callables are printed one after the other with a blank line between them. -/
theorem Program.format_append {cs ds : List Callable} (hcs : cs ≠ []) (hds : ds ≠ []) :
    (Program.mk (cs ++ ds)).format = (Program.mk cs).format ++ "\n" ++ (Program.mk ds).format := by
  apply String.toList_injective
  simp only [format, pieces, Callable.paragraphPieces_append hcs hds, String.toList_append,
    Piece.toList_render, List.flatMap_append]
  rfl

/-- If two programs can be renamed, so can the program of both, callable by callable. -/
theorem Program.rename_append {p q p' q' : Program} (hp : p.rename = .ok p') (hq : q.rename = .ok q') :
    (Program.mk (p.callables ++ q.callables)).rename = .ok ⟨p'.callables ++ q'.callables⟩ :=
  rename_eq_ok_iff.2 (List.rel_append (rename_eq_ok_iff.1 hp) (rename_eq_ok_iff.1 hq))

/-- A program that has callables still has some after renaming. -/
theorem Program.callables_ne_nil_of_rename {p p' : Program} (h : p.rename = .ok p')
    (hp : p.callables ≠ []) : p'.callables ≠ [] := by
  have hlength := (rename_eq_ok_iff.1 h).length_eq
  intro hp'
  rw [hp', List.length_nil, List.length_eq_zero_iff] at hlength
  exact hp hlength

/-! ### Parsing -/

/-- The text of two programs with a line feed between them is a program: the first one, then the second one
up to spans. If the text is not too long, the spans of the second one are farther back. -/
theorem Program.parse_line_feed {source source' : String} {p q : Program} (hp : parse source = .ok p)
    (hq : parse source' = .ok q) : ∃ q' : Program,
      parse (source ++ "\n" ++ source') = .ok ⟨p.callables ++ q'.callables⟩ ∧
      q'.withoutSpans = q.withoutSpans ∧
      ((source ++ "\n" ++ source').utf8ByteSize < UInt32.size →
        q' = q.mapSpans (Span.shift (source.utf8ByteSize + 1))) := by
  obtain ⟨tokens, htokens, hp⟩ := Parser.onText_eq_ok_iff.1 hp
  obtain ⟨tokens', htokens', hq⟩ := Parser.onText_eq_ok_iff.1 hq
  obtain ⟨body, t, more, rfl, ht, hbody, hjoined, hkinds, hplaces⟩ := tokenize_line_feed htokens htokens'
  obtain ⟨body', u, rfl, -, -⟩ := exists_body_of_tokenize htokens'
  -- the tokens of the second text, where they stand now, are accepted because of their kinds
  have hsame : SameUpToSpans withoutSpans (ofTokens (body' ++ [u])) (ofTokens more) :=
    Parser.onTokens_sameUpToSpans (Grammar.natural_program Span.coherent_nowhere) hkinds.symm
  rw [ofTokens, hq] at hsame
  obtain ⟨q', hq', hblot⟩ := hsame.exists_ok
  obtain ⟨more, last, rfl, -, hlast⟩ := List.map_eq_append_iff.1 (hkinds.trans List.map_append)
  obtain ⟨v, rfl, -⟩ := List.map_eq_singleton_iff.1 hlast
  refine ⟨q', ?parsed, hblot.symm, ?shifted⟩
  case parsed => exact Parser.onText_eq_ok_iff.2 ⟨_, hjoined, ofTokens_append hbody ht hp hq'⟩
  case shifted =>
    intro hsize
    have hshift := ofTokens_shift hq (source.utf8ByteSize + 1)
    rw [← hplaces hsize] at hshift
    exact Except.ok.inj (hq'.symm.trans hshift)

/-! ### The commands -/

/-- **Texts compose.**  Let two texts be programs with callables, the first one `p` and the second one `q`.
Then the two texts with a line feed between them are a program: it has the callables of `p` and then those of
`q` up to spans, farther back by what stands before them if the text is not too long. It is printed and it is
renamed to what the first text is, a line feed, and what the second text is. -/
theorem compose_line_feed {source source' : String} {p q : Program}
    (hparse : Program.parse source = .ok p) (hparse' : Program.parse source' = .ok q)
    (hp : p.callables ≠ []) (hq : q.callables ≠ []) :
    (∃ q' : Program, Program.parse (source ++ "\n" ++ source') = .ok ⟨p.callables ++ q'.callables⟩ ∧
      q'.withoutSpans = q.withoutSpans ∧
      ((source ++ "\n" ++ source').utf8ByteSize < UInt32.size →
        q' = q.mapSpans (Span.shift (source.utf8ByteSize + 1)))) ∧
    (∃ text text', ∀ path, Command.format path source = .ok text ∧
      Command.format path source' = .ok text' ∧
      Command.format path (source ++ "\n" ++ source') = .ok (text ++ "\n" ++ text')) ∧
    ∃ text text', ∀ path checked apart, Command.rename path source checked apart = .ok text ∧
      Command.rename path source' checked apart = .ok text' ∧
      Command.rename path (source ++ "\n" ++ source') checked apart = .ok (text ++ "\n" ++ text') := by
  obtain ⟨q', hjoined, hsame, hshift⟩ := Program.parse_line_feed hparse hparse'
  have hq' : q'.callables ≠ [] := by
    intro hnil
    have hlength := congrArg (fun r : Program => r.callables.length) hsame
    simp only [Program.withoutSpans, Program.mapSpans, List.length_map, hnil, List.length_nil] at hlength
    exact hq (List.length_eq_zero_iff.1 hlength.symm)
  refine ⟨⟨q', hjoined, hsame, hshift⟩, ⟨p.format, q.format, fun path => ⟨?_, ?_, ?_⟩⟩, ?renamed⟩
  · exact Command.format_of_parse hparse path
  · exact Command.format_of_parse hparse' path
  · rw [Command.format_of_parse hjoined path, Program.format_append hp hq',
      Program.format_eq_of_withoutSpans hsame]
  case renamed =>
    obtain ⟨p₁, hp₁, -, hrename⟩ := Command.rename_of_parse hparse
    obtain ⟨q₁, hq₁, -, hrename'⟩ := Command.rename_of_parse hparse'
    obtain ⟨r₁, hr₁, -, hrename''⟩ := Command.rename_of_parse hjoined
    obtain ⟨q₂, hq₂, -⟩ := q'.exists_rename
    -- callables are renamed one by one, so the renamed joined program has those of both
    obtain rfl : r₁ = _ := Except.ok.inj (hr₁.symm.trans (Program.rename_append hp₁ hq₂))
    refine ⟨p₁.format, q₁.format, fun path checked apart => ⟨?_, ?_, ?_⟩⟩
    · exact hrename path checked apart
    · exact hrename' path checked apart
    · rw [hrename'' path checked apart,
        Program.format_append (Program.callables_ne_nil_of_rename hp₁ hp)
          (Program.callables_ne_nil_of_rename hq₂ hq'),
        Program.format_rename_eq hsame hq₂ hq₁]

/-- Behind a text that ends in an open comment. -/
theorem compose_line_feed_comment : ∃ p q : Program,
    Program.parse "fn f(a) \x7b\x7d // f" = .ok p ∧ Program.parse "fn g() \x7b\x7d" = .ok q ∧
      p.callables ≠ [] ∧ q.callables ≠ [] ∧
      Program.parse ("fn f(a) \x7b\x7d // f" ++ "\n" ++ "fn g() \x7b\x7d") =
        .ok ⟨p.callables ++ (q.mapSpans (Span.shift 16)).callables⟩ := by
  have hf : Program.parse "fn f(a) \x7b\x7d // f" =
      .ok ⟨[⟨"f", .binder ⟨"a", none, ⟨5, 6⟩⟩, ⟨[], ⟨8, 10⟩⟩, ⟨0, 10⟩⟩]⟩ := by decide +kernel
  have hg : Program.parse "fn g() \x7b\x7d" =
      .ok ⟨[⟨"g", .tuple [] ⟨4, 6⟩, ⟨[], ⟨7, 9⟩⟩, ⟨0, 9⟩⟩]⟩ := by decide +kernel
  have hsize : ("fn f(a) \x7b\x7d // f" ++ "\n" ++ "fn g() \x7b\x7d").utf8ByteSize < UInt32.size := by
    decide
  obtain ⟨⟨q', hjoined, -, hshift⟩, -, -⟩ :=
    compose_line_feed hf hg (List.cons_ne_nil _ _) (List.cons_ne_nil _ _)
  obtain rfl := hshift hsize
  exact ⟨_, _, hf, hg, List.cons_ne_nil _ _, List.cons_ne_nil _ _, hjoined⟩

end Freshen
