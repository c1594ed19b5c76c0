import Mathlib
import Freshen.Proofs.Grammar.Respan

/-!
# Parsing up to spans

What the parser answers depends on the token kinds alone, but for the spans in it.

- `SameUpToSpans`: two answers with trees that are equal up to spans, or with the same complaint.

**Key result.** `Parser.onTokens_sameUpToSpans`: a rule that never looks at spans gives such answers on
token lists of the same kinds.
-/

namespace Freshen

/-- Two answers of the parser are the same up to spans: trees that `blot` makes equal, or errors in which
the same thing is expected and the same token is found. -/
inductive SameUpToSpans {α : Type} (blot : α → α) :
    Except ParseError α → Except ParseError α → Prop where
  | ok {a b : α} (h : blot a = blot b) : SameUpToSpans blot (.ok a) (.ok b)
  | unexpected (expected : Expected) (found : TokenKind) (s s' : Span) :
      SameUpToSpans blot (.error (.unexpected expected found s))
        (.error (.unexpected expected found s'))

/-- If one answer is a tree, so is the other, and the trees are equal up to spans. -/
theorem SameUpToSpans.exists_ok {α : Type} {blot : α → α} {r : Except ParseError α} {a : α}
    (h : SameUpToSpans blot (.ok a) r) : ∃ b, r = .ok b ∧ blot a = blot b := by
  cases h with
  | ok h => exact ⟨_, rfl, h⟩

namespace Parser

variable {α : Type} {p : Nat → Parser α} {g : α → α}

/-- From cursors that are equal up to spans, a rule that never looks at spans ends in the same way. -/
theorem Natural.ends {f : Span → Span} {q : Parser α} (h : Natural f q g q) {c c' : Cursor}
    (hc : c.mapSpans f = c'.mapSpans f) :
    (∃ a d a' d', q.run c = .ok (a, d) ∧ q.run c' = .ok (a', d') ∧ g a = g a') ∨
      ∃ stop stop', q.run c = .error stop ∧ q.run c' = .error stop' ∧ stop.mapSpans f = stop'.mapSpans f := by
  -- both runs are the run on tokens with changed spans
  have hrun := h c
  rw [hc, h c'] at hrun
  cases hq : q.run c with
  | ok result =>
      cases hq' : q.run c' with
      | ok result' =>
          rw [hq, hq'] at hrun
          exact .inl ⟨_, _, _, _, rfl, rfl, (Prod.mk.inj (Except.ok.inj hrun)).1.symm⟩
      | error stop' =>
          rw [hq, hq'] at hrun
          cases hrun
  | error stop =>
      cases hq' : q.run c' with
      | ok result' =>
          rw [hq, hq'] at hrun
          cases hrun
      | error stop' =>
          rw [hq, hq'] at hrun
          exact .inr ⟨_, _, rfl, rfl, (Except.error.inj hrun).symm⟩

/-- On two token lists of the same kinds, a rule that does not depend on spans gives the same outcome up to
spans. -/
theorem onTokens_sameUpToSpans (h : ∀ fuel, Natural (fun _ => .nowhere) (p fuel) g (p fuel))
    {tokens tokens' : List Token} (hkinds : tokens.map Token.kind = tokens'.map Token.kind) :
    SameUpToSpans g (onTokens p tokens) (onTokens p tokens') := by
  have hlength : tokens.length = tokens'.length := by simpa using congrArg List.length hkinds
  have hstart : (Cursor.start tokens).mapSpans (fun _ => .nowhere) =
      (Cursor.start tokens').mapSpans fun _ => .nowhere := by
    rw [Cursor.start_mapSpans_nowhere, Cursor.start_mapSpans_nowhere, hkinds]
  have hcurrent : (Cursor.start tokens).current.kind = (Cursor.start tokens').current.kind := by
    have hmapped := congrArg (fun c => c.current.kind) hstart
    simpa only [Cursor.current_mapSpans, Token.mapSpan] using hmapped
  unfold onTokens
  rw [← hlength]
  rcases (h (tokens.length + 1)).ends hstart with
    ⟨a, d, a', d', hp, hp', heq⟩ | ⟨stop, stop', hp, hp', heq⟩
  · simp only [hp, hp']
    exact .ok heq
  · simp only [hp, hp']
    cases stop with
    | unexpected expected found =>
        cases stop' with
        | outOfFuel => cases heq
        | unexpected expected' found' =>
            obtain ⟨rfl, hfound⟩ := Stop.unexpected.inj heq
            have hkind := congrArg Token.kind hfound
            change found.kind = found'.kind at hkind
            simp only [hkind]
            exact .unexpected _ _ _ _
    | outOfFuel =>
        cases stop' with
        | unexpected => cases heq
        | outOfFuel =>
            simp only [hcurrent]
            exact .unexpected _ _ _ _

/-- The same for two texts that are read as tokens of the same kinds. -/
theorem onText_sameUpToSpans (h : ∀ fuel, Natural (fun _ => .nowhere) (p fuel) g (p fuel))
    {source source' : String} {tokens tokens' : List Token} (htokens : tokenize source = .ok tokens)
    (htokens' : tokenize source' = .ok tokens')
    (hkinds : tokens.map Token.kind = tokens'.map Token.kind) :
    SameUpToSpans g (onText p source) (onText p source') := by
  rw [onText, onText, htokens, htokens']
  exact onTokens_sameUpToSpans h hkinds

end Parser

end Freshen
