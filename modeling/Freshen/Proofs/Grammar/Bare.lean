import Mathlib
import Freshen.Grammar.Parser
import Freshen.Proofs.Grammar.Derivation

/-!
# Parsers on bare tokens

Running a parser on tokens that stand nowhere, which makes its answer depend on token kinds alone.

- `Cursor.bare`: the cursor at the start of such tokens.
- `Parser.onKinds`: what a parser does there.
- `Parser.Completes`: on the tokens of an item and what may follow it, a rule reads the item and
  nothing else.

**Key results.** One equation for each step that a parser is made of, and `Parser.onKinds_sepList` for
lists of items.
-/

namespace Freshen

/-- The cursor at the start of tokens that stand nowhere. -/
def Cursor.bare (ks : List TokenKind) : Cursor := ⟨ks.map (⟨·, .nowhere⟩), .nowhere, .nowhere⟩

namespace Parser

open Cursor (bare)

variable {α β : Type} {k k' : TokenKind} {ks rest : List TokenKind} {a : α}

/-- What a parser does at the start of tokens that stand nowhere. -/
def onKinds (p : Parser α) (ks : List TokenKind) : Except Stop (α × Cursor) := p.run (bare ks)

/-- A parser that goes on after it read `a` up to `rest`. -/
theorem onKinds_bind {p : Parser α} (h : p.onKinds ks = .ok (a, bare rest)) (f : α → Parser β) :
    (p >>= f).onKinds ks = (f a).onKinds rest := by
  rw [onKinds, StateT.run_bind, show p.run (bare ks) = _ from h]
  rfl

/-- A parser that only answers reads nothing. -/
@[simp] theorem onKinds_pure (a : α) (ks : List TokenKind) :
    (pure a : Parser α).onKinds ks = .ok (a, bare ks) := rfl

/-- Looking at the kind of the next token reads nothing. -/
@[simp] theorem onKinds_peek (f : TokenKind → Parser β) :
    (peek >>= f).onKinds (k :: ks) = (f k).onKinds (k :: ks) := rfl

/-- Looking at the kind of the token after the next reads nothing. -/
@[simp] theorem onKinds_peekNext (f : TokenKind → Parser β) :
    (peekNext >>= f).onKinds (k :: k' :: ks) = (f k').onKinds (k :: k' :: ks) := rfl

/-- Looking at the next token reads nothing; it stands nowhere. -/
@[simp] theorem onKinds_current (f : Token → Parser β) :
    (current >>= f).onKinds (k :: ks) = (f ⟨k, .nowhere⟩).onKinds (k :: ks) := rfl

/-- The span that was read last is nowhere. -/
@[simp] theorem onKinds_lastSpan (f : Span → Parser β) :
    (lastSpan >>= f).onKinds ks = (f .nowhere).onKinds ks := rfl

/-- A test of the next token tells whether it is of the kind in question, and reads nothing. -/
@[simp] theorem onKinds_at? (f : Bool → Parser β) :
    (at? k' >>= f).onKinds (k :: ks) = (f (k = k')).onKinds (k :: ks) := rfl

/-- One step reads one token, unless this is the end of the text. -/
theorem onKinds_advance_eq (hk : k ≠ .eof) :
    advance.onKinds (k :: ks) = .ok (.nowhere, bare ks) := by
  have hnext : (bare (k :: ks)).next = bare ks := by simp [bare, Cursor.next, hk]
  rw [← hnext]
  rfl

/-- A parser that goes on after one token. -/
@[simp] theorem onKinds_advance (hk : k ≠ .eof) (f : Span → Parser β) :
    (advance >>= f).onKinds (k :: ks) = (f .nowhere).onKinds ks :=
  onKinds_bind (onKinds_advance_eq hk) f

/-- A token that is next is eaten. -/
@[simp] theorem onKinds_eat (hk : k ≠ .eof) (f : Bool → Parser β) :
    (eat k >>= f).onKinds (k :: ks) = (f true).onKinds ks := by
  have heat : (eat k).onKinds (k :: ks) = .ok (true, bare ks) := by
    rw [eat, onKinds_at?, decide_eq_true rfl, if_pos rfl, onKinds_advance hk, onKinds_pure]
  exact onKinds_bind heat f

/-- A token that is not next is not eaten. -/
@[simp] theorem onKinds_eat_of_ne (h : k ≠ k') (f : Bool → Parser β) :
    (eat k' >>= f).onKinds (k :: ks) = (f false).onKinds (k :: ks) := by
  have heat : (eat k').onKinds (k :: ks) = .ok (false, bare (k :: ks)) := by
    rw [eat, onKinds_at?, decide_eq_false h, if_neg Bool.false_ne_true, onKinds_pure]
  exact onKinds_bind heat f

/-- A parser that goes on after a token of the kind that it expects. -/
@[simp] theorem onKinds_expect (hk : k ≠ .eof) (f : Span → Parser β) :
    (expect k >>= f).onKinds (k :: ks) = (f .nowhere).onKinds ks := by
  have hexpect : (expect k).onKinds (k :: ks) = .ok (.nowhere, bare ks) := by
    rw [expect, onKinds_at?, decide_eq_true rfl, if_pos rfl, onKinds_advance_eq hk]
  exact onKinds_bind hexpect f

/-- A parser that goes on after an identifier. -/
@[simp] theorem onKinds_identifier (name : Name) (f : Name × Span → Parser β) :
    (identifier >>= f).onKinds (.ident name :: ks) = (f (name, .nowhere)).onKinds ks := by
  have hidentifier : identifier.onKinds (.ident name :: ks) = .ok ((name, .nowhere), bare ks) :=
    onKinds_advance (k := .ident name) nofun fun span => pure (name, span)
  exact onKinds_bind hidentifier f

/-! ### Lists of items -/

/-- On the tokens `ks` of an item, followed by tokens that may follow it, the rule reads `ks` and
answers with `x`. -/
def Completes (item : Parser α) (May : List TokenKind → Prop) (ks : List TokenKind) (x : α) : Prop :=
  ∀ rest, May rest → item.onKinds (ks ++ rest) = .ok (x, bare rest)

open Grammar in
/-- On items with commas between them, up to `close`, which is not read, a list reads the items. -/
theorem onKinds_sepList {item : Parser α} {May : List TokenKind → Prop} {blot : α → α} {xs : List α}
    {comma : Bool} {close : TokenKind} (hclose : close ≠ .mark .comma)
    (hcomma : ∀ rest, May (.mark .comma :: rest)) (hrest : May (close :: rest))
    (h : SepBy (fun ks x => (∃ k ks', ks = k :: ks' ∧ k ≠ close) ∧ Completes item May ks (blot x))
      ks xs comma) :
    ∀ {fuel : Nat}, ks.length < fuel →
      (sepList close item fuel).onKinds (ks ++ close :: rest) =
        .ok ((xs.map blot, comma), bare (close :: rest)) := by
  induction h with
  | nil =>
      rintro (_ | fuel) hfuel
      · exact absurd hfuel (Nat.not_lt_zero _)
      · simp [sepList]
  | last hx =>
      rintro (_ | fuel) hfuel
      · exact absurd hfuel (Nat.not_lt_zero _)
      · obtain ⟨⟨k, ks', rfl, hk⟩, hx⟩ := hx
        have hitem := hx _ hrest
        rw [List.cons_append] at hitem ⊢
        simp [sepList, hk, hclose, onKinds_bind hitem, -bind_pure_comp]
  | @cons ks ks₂ x xs comma hx _ ih =>
      rintro (_ | fuel) hfuel
      · exact absurd hfuel (Nat.not_lt_zero _)
      · obtain ⟨⟨k, ks', rfl, hk⟩, hx⟩ := hx
        have hlater := ih (show _ < fuel by simp at hfuel; omega)
        have hitem := hx _ (hcomma (ks₂ ++ close :: rest))
        simp only [List.cons_append, List.append_assoc] at hitem ⊢
        simp [sepList, hk, onKinds_bind hitem, onKinds_bind hlater, -bind_pure_comp]

end Parser

end Freshen
