import Mathlib
import Freshen.Proofs.Grammar.Acceptance
import Freshen.Proofs.Grammar.Stopping

/-!
# Syntax errors

A syntax error names the first token that is impossible where it stands.

- `EndsOnce`: what a token list has to look like.
- `ImpossibleAfter`: a token that nothing accepted has after certain tokens.
- `Parser.stops_of_onTokens`: a rule that stops does so with any more fuel and whatever comes later.

**Key results.** `ofTokens_error_namesFirst`: the statement for programs, callables and expressions.
-/

namespace Freshen

open Grammar
open Cursor (Anywhere)

/-- The tokens end with the end of the text and have no other end in them. -/
def EndsOnce (tokens : List Token) : Prop := ∃ ks, tokens.map Token.kind = ks ++ [.eof] ∧ .eof ∉ ks

/-- The tokens `read` can be completed to tokens that `parse` accepts, but no tokens that begin with the
kinds of `read` and of `t` are accepted. -/
structure ImpossibleAfter {α : Type} (parse : List Token → Except ParseError α) (read : List Token)
    (t : Token) : Prop where
  completable : ∃ more a, EndsOnce (read ++ more) ∧ parse (read ++ more) = .ok a
  rejected : ∀ other more a, other.map Token.kind = (read ++ [t]).map Token.kind →
    parse (other ++ more) ≠ .ok a

/-- The error gives the kind and the place of a token of `tokens` that is impossible after those before it. -/
def ParseError.NamesFirst {α : Type} (parse : List Token → Except ParseError α) (tokens : List Token)
    (e : ParseError) : Prop :=
  ∃ read t rest expected, tokens = read ++ t :: rest ∧ e = .unexpected expected t.kind t.span ∧
    ImpossibleAfter parse read t

namespace Parser

variable {α : Type} {p : Nat → Parser α} {R : List TokenKind → α → Prop} {tokens : List Token}

/-- A whole token list is fewer tokens than the fuel that it is read with. -/
theorem ends_start (hviable : ∀ n, Viable n Anywhere (fun m => p (m + n)) R) (tokens : List Token) :
    Ends (fun m => p (m + (tokens.length + 1))) R (.start tokens) :=
  (hviable _).ends _ trivial (Nat.lt_succ_self _)

/-- A viable rule that does not accept the tokens stops at one of them, with any more fuel and whatever comes
after that token. -/
theorem stops_of_onTokens (hviable : ∀ n, Viable n Anywhere (fun m => p (m + n)) R)
    (hends : EndsOnce tokens) {e : ParseError} (he : onTokens p tokens = .error e) :
    ∃ read t rest expected, tokens = read ++ t :: rest ∧ e = .unexpected expected t.kind t.span ∧
      (∃ more a, .eof ∉ read.map Token.kind ++ more ∧ R (read.map Token.kind ++ more) a) ∧
      ∀ m more, (p (m + (tokens.length + 1))).run (.start (read ++ t :: more)) =
        .error (.unexpected expected t) := by
  cases ends_start hviable tokens with
  | answers a hreach hagree =>
      have hrun := run_of_reaches hreach (hagree 0)
      rw [Nat.zero_add] at hrun
      simp [onTokens, hrun] at he
  | @stops read c' more a expected hreach heof hR hagree =>
      have hrun := run_of_reaches hreach (hagree 0)
      rw [Nat.zero_add] at hrun
      have htokens : tokens = read ++ c'.rest := congrArg Cursor.rest hreach.eq_unread
      obtain ⟨t, rest, hrest⟩ : ∃ t rest, c'.rest = t :: rest := by
        refine List.exists_cons_of_ne_nil fun hnil => hreach.eof_notMem ?_
        obtain ⟨ks, hkinds, -⟩ := hends
        rw [htokens, hnil, List.append_nil] at hkinds
        simp [hkinds]
      have ht : c'.current = t := by simp [Cursor.current, hrest]
      rw [ht] at hrun hagree
      refine ⟨read, t, rest, expected, by rw [htokens, hrest], ?_, ⟨more, a, ?_, hR⟩, fun m more => ?_⟩
      · simpa [onTokens, hrun] using he.symm
      · simp [hreach.eof_notMem, heof]
      · exact hagree m ⟨t :: more, c'.last, (Cursor.start (read ++ t :: more)).finish⟩ ⟨ht.symm, rfl⟩

/-- What a viable rule accepts is answered with any more fuel. -/
theorem run_of_onTokens_add (hviable : ∀ n, Viable n Anywhere (fun m => p (m + n)) R) {a : α}
    (ha : onTokens p tokens = .ok a) (m : Nat) :
    ∃ c, (p (m + (tokens.length + 1))).run (.start tokens) = .ok (a, c) := by
  obtain ⟨c, hrun⟩ := run_of_onTokens ha
  rw [← Nat.zero_add (tokens.length + 1)] at hrun
  exact ⟨c, (ends_start hviable tokens).run_eq_ok hrun m⟩

/-- A rule that is viable and complete for a relation stops at the first impossible token. -/
theorem namesFirst_of_onTokens {blot : α → α} (hviable : ∀ n, Viable n Anywhere (fun m => p (m + n)) R)
    (hnatural : ∀ fuel, Natural (fun _ => .nowhere) (p fuel) blot (p fuel))
    (hcomplete : ∀ {ks a}, R ks a → ∀ {fuel}, ks.length < fuel →
      (p fuel).onKinds (ks ++ [.eof]) = .ok (blot a, .bare [.eof]))
    (hends : EndsOnce tokens) {e : ParseError} (he : onTokens p tokens = .error e) :
    e.NamesFirst (onTokens p) tokens := by
  obtain ⟨read, t, rest, expected, htokens, rfl, ⟨more, a, heof, hR⟩, hstops⟩ :=
    stops_of_onTokens hviable hends he
  refine ⟨read, t, rest, expected, htokens, rfl, ?_, ?_⟩
  · have hkinds : (read ++ (more ++ [TokenKind.eof]).map (Token.mk · .nowhere)).map Token.kind =
        read.map Token.kind ++ more ++ [.eof] := by simp [Function.comp_def]
    obtain ⟨b, hb, -⟩ := onTokens_of_derives hnatural hcomplete hkinds hR
    exact ⟨_, b, ⟨_, hkinds, heof⟩, hb⟩
  · intro other more a hother ha
    obtain ⟨b, hb⟩ : ∃ b, onTokens p (read ++ t :: more) = .ok b :=
      onTokens_of_kinds_eq hnatural (by simp [hother]) ha
    -- fuel that is enough for either token list
    obtain ⟨c, hrun⟩ := run_of_onTokens_add hviable hb (tokens.length + 1)
    rw [Nat.add_comm, hstops] at hrun
    cases hrun

end Parser

/-- **Syntax errors are reported at the first impossible token.**  If tokens followed by the end of the text
are not accepted, the error names one of them, or the end. What stands before it can be completed to tokens
that are accepted, but no accepted tokens begin with the same kinds up to and including it. -/
theorem ofTokens_error_namesFirst {tokens : List Token} (hends : EndsOnce tokens) :
    (∀ e, Program.ofTokens tokens = .error e → e.NamesFirst Program.ofTokens tokens) ∧
    (∀ e, Callable.ofTokens tokens = .error e → e.NamesFirst Callable.ofTokens tokens) ∧
    ∀ e, Expr.ofTokens tokens = .error e → e.NamesFirst Expr.ofTokens tokens := by
  refine ⟨fun e he => ?_, fun e he => ?_, fun e he => ?_⟩
  · exact Parser.namesFirst_of_onTokens (fun n => viable_program (le_refl n))
      (natural_program Span.coherent_nowhere) IsProgram.completes hends he
  · exact Parser.namesFirst_of_onTokens
      (fun n => viable_only (fun _ => sound_callable _) (viable_callable (le_refl n)))
      (natural_onlyCallable Span.coherent_nowhere) IsCallable.onlyCompletes hends he
  · exact Parser.namesFirst_of_onTokens
      (fun n => viable_only (fun _ => sound_expr _) (viable_expr (le_refl n)))
      (natural_onlyExpr Span.coherent_nowhere) IsExpr.onlyCompletes hends he

/-- In `f(a b)` the name `b` is impossible after `f(a`. -/
theorem ofTokens_error_namesFirst_missingComma :
    ∃ (tokens : List Token) (e : ParseError),
      tokens = [⟨.ident "f", .ofRange 0 1⟩, ⟨.mark .lparen, .ofRange 1 2⟩, ⟨.ident "a", .ofRange 2 3⟩,
        ⟨.ident "b", .ofRange 4 5⟩, ⟨.mark .rparen, .ofRange 5 6⟩, ⟨.eof, .ofRange 6 6⟩] ∧
      e = .unexpected (.token (.mark .rparen)) (.ident "b") (.ofRange 4 5) ∧
      EndsOnce tokens ∧ Expr.ofTokens tokens = .error e ∧ e.NamesFirst Expr.ofTokens tokens := by
  have heof : .eof ∉ [.ident "f", .mark .lparen, .ident "a", .ident "b", TokenKind.mark .rparen] := by decide
  refine ⟨_, _, rfl, rfl, ⟨_, rfl, heof⟩, rfl, ?_⟩
  exact (ofTokens_error_namesFirst ⟨_, rfl, heof⟩).2.2 _ rfl

end Freshen
