import Mathlib
import Freshen.Grammar.Parser
import Freshen.Proofs.Grammar.Derivation

/-!
# What a parser reads

A calculus for statements of the form: if a parser succeeds, then the tokens that it read and its
answer are in a relation.

- `Cursor.kinds`, `Cursor.ahead`: the kinds of the tokens that are left; the same with the end of the
  text after them.
- `Parser.Reads`: the statement, with kinds that are known to stand ahead before and after.

**Key results.** One rule for each step that a parser is made of, and `Reads.sepList` for lists of
items.
-/

namespace Freshen

/-- The kinds of the tokens that are left. -/
def Cursor.kinds (c : Cursor) : List TokenKind := c.rest.map Token.kind

/-- The kinds that looking ahead shows: after the last token there is only the end of the text. -/
def Cursor.ahead (c : Cursor) : List TokenKind := c.kinds ++ [.eof, .eof]

namespace Cursor

variable {c : Cursor} {k : TokenKind} {ks : List TokenKind}

/-- The kind of the next token stands ahead. -/
theorem kind_current (c : Cursor) : [c.current.kind] <+: c.ahead := by
  obtain ⟨rest, last, finish⟩ := c
  cases rest <;> simp [ahead, kinds, current]

/-- The kinds of the next two tokens stand ahead. -/
theorem nextKind_ahead (c : Cursor) : [c.current.kind, c.nextKind] <+: c.ahead := by
  obtain ⟨rest, last, finish⟩ := c
  rcases rest with _ | ⟨t, _ | ⟨u, rest⟩⟩ <;> simp [ahead, kinds, current, nextKind]

/-- The first kind that stands ahead is that of the next token. -/
theorem kind_eq_of_ahead (h : k :: ks <+: c.ahead) : c.current.kind = k := by
  obtain ⟨tail, htail⟩ := h
  obtain ⟨tail', htail'⟩ := c.kind_current
  rw [← htail'] at htail
  exact (List.cons.inj htail).1.symm

/-- A token other than the end of the text is read by going on. -/
theorem kinds_next (h : k :: ks <+: c.ahead) (hk : k ≠ .eof) :
    c.kinds = k :: c.next.kinds ∧ ks <+: c.next.ahead := by
  obtain ⟨rest, last, finish⟩ := c
  cases rest with
  | nil =>
      obtain ⟨tail, htail⟩ := h
      exact absurd (List.cons.inj htail).1 hk
  | cons t rest =>
      simp only [ahead, kinds, List.map_cons, List.cons_append, List.cons_prefix_cons] at h
      have hne : t.kind ≠ .eof := h.1 ▸ hk
      refine ⟨?_, ?_⟩
      · simp [kinds, next, hne, h.1]
      · simpa [ahead, kinds, next, hne] using h.2

end Cursor

namespace Parser

variable {α β : Type} {p : Parser α} {f : α → Parser β} {a : α} {k : TokenKind}
  {P : List TokenKind → α → Prop} {R : List TokenKind → β → Prop}
  {before between after ks : List TokenKind}

/-- If `p` succeeds where `before` stands ahead, then `after` stands ahead of what it leaves, the
tokens that it read and its answer are in `R`, and it did not read the end of the text. -/
def Reads (before : List TokenKind) (p : Parser α) (R : List TokenKind → α → Prop)
    (after : List TokenKind) : Prop :=
  ∀ c a c', before <+: c.ahead → p.run c = .ok (a, c') →
    ∃ ks, c.kinds = ks ++ c'.kinds ∧ .eof ∉ ks ∧ R ks a ∧ after <+: c'.ahead

/-- If `p` succeeds, the tokens that it read and its answer are in `R`. -/
abbrev Sound (p : Parser α) (R : List TokenKind → α → Prop) : Prop := Reads [] p R []

/-- A parser that succeeds after another one did. -/
theorem run_bind_eq_ok {c c' : Cursor} {b : β} (h : (p >>= f).run c = .ok (b, c')) :
    ∃ a c₁, p.run c = .ok (a, c₁) ∧ (f a).run c₁ = .ok (b, c') := by
  rw [StateT.run_bind] at h
  cases hp : p.run c with
  | error e =>
      rw [hp] at h
      exact absurd h nofun
  | ok result =>
      rw [hp] at h
      exact ⟨result.1, result.2, rfl, h⟩

namespace Reads

/-- A parser that only answers reads nothing and leaves what stands ahead. -/
theorem pure (h : P [] a) : Reads before (Pure.pure a) P before := by
  rintro c b c' hbefore hrun
  obtain ⟨rfl, rfl⟩ := Prod.mk.inj (Except.ok.inj hrun)
  exact ⟨[], rfl, List.not_mem_nil, h, hbefore⟩

/-- What stands ahead need not be looked at. -/
theorem forget (h : Reads [] p P after) : Reads before p P after :=
  fun c b c' _ hrun => h c b c' List.nil_prefix hrun

/-- What stands ahead in the end need not be told. -/
theorem untold (h : Reads before p P after) : Reads before p P [] := fun c b c' hbefore hrun => by
  obtain ⟨ks, hks, heof, hR, -⟩ := h c b c' hbefore hrun
  exact ⟨ks, hks, heof, hR, List.nil_prefix⟩

/-- What is known of the tokens and the answer may be weakened. -/
theorem imp {Q : List TokenKind → α → Prop} (h : Reads before p P after)
    (himp : ∀ ks a, P ks a → Q ks a) : Reads before p Q after := fun c b c' hbefore hrun => by
  obtain ⟨ks, hks, heof, hR, hafter⟩ := h c b c' hbefore hrun
  exact ⟨ks, hks, heof, himp ks b hR, hafter⟩

/-- What is read first and what is read after it make up the tokens that are read. -/
theorem bind (hp : Reads before p P between)
    (hf : ∀ ks a, P ks a → Reads between (f a) (fun ks' b => R (ks ++ ks') b) after) :
    Reads before (p >>= f) R after := by
  intro c b c' hbefore hrun
  obtain ⟨a, c₁, hrun₁, hrun₂⟩ := run_bind_eq_ok hrun
  obtain ⟨ks, hks, heof, hP, hbetween⟩ := hp c a c₁ hbefore hrun₁
  obtain ⟨ks', hks', heof', hR, hafter⟩ := hf ks a hP c₁ b c' hbetween hrun₂
  exact ⟨ks ++ ks', by rw [hks, hks', List.append_assoc], by simp [heof, heof'], hR, hafter⟩

/-- A parser that fails does not succeed. -/
theorem fail (expected : Expected) : Reads before (Parser.fail expected) P after :=
  fun _ _ _ _ hrun => absurd hrun nofun

/-- A parser that is out of fuel does not succeed. -/
theorem outOfFuel : Reads before Parser.outOfFuel P after :=
  fun _ _ _ _ hrun => absurd hrun nofun

/-! ### Looking ahead and reading one token -/

/-- Looking at the next token reads nothing. -/
theorem current {f : Token → Parser β} (h : ∀ t, Reads before (f t) R after) :
    Reads before (Parser.current >>= f) R after :=
  fun c b c' hbefore hrun => h c.current c b c' hbefore hrun

/-- Asking for the span that was read last reads nothing. -/
theorem lastSpan {f : Span → Parser β} (h : ∀ s, Reads before (f s) R after) :
    Reads before (Parser.lastSpan >>= f) R after :=
  fun c b c' hbefore hrun => h c.last c b c' hbefore hrun

/-- After the kind of the next token was looked at, it is known to stand ahead. -/
theorem peek {f : TokenKind → Parser β} (h : ∀ k, Reads [k] (f k) R after) :
    Reads before (Parser.peek >>= f) R after :=
  fun c b c' _ hrun => h c.current.kind c b c' c.kind_current hrun

/-- After the kind of the token after the next was looked at, both are known to stand ahead. -/
theorem peekNext {f : TokenKind → Parser β} (h : ∀ k', Reads [k, k'] (f k') R after) :
    Reads [k] (Parser.peekNext >>= f) R after := fun c b c' hbefore hrun => by
  have hahead := c.nextKind_ahead
  rw [Cursor.kind_eq_of_ahead hbefore] at hahead
  exact h c.nextKind c b c' hahead hrun

/-- One step reads the token that stands ahead, unless this is the end of the text. -/
theorem advance {f : Span → Parser β} (hk : k ≠ .eof)
    (h : ∀ s, Reads before (f s) (fun ks b => R (k :: ks) b) after) :
    Reads (k :: before) (Parser.advance >>= f) R after := fun c b c' hbefore hrun => by
  obtain ⟨hkinds, hnext⟩ := Cursor.kinds_next hbefore hk
  obtain ⟨ks, hks, heof, hR, hafter⟩ := h c.current.span c.next b c' hnext hrun
  exact ⟨k :: ks, by rw [hkinds, hks, List.cons_append], by simp [hk.symm, heof], hR, hafter⟩

/-- After a test that succeeds, the kind in question is known to stand ahead. -/
theorem at? {f : Bool → Parser β} (htrue : Reads [k] (f true) R after)
    (hfalse : Reads [] (f false) R after) : Reads before (Parser.at? k >>= f) R after :=
  fun c b c' _ hrun => by
    by_cases heq : c.current.kind = k
    · have hrun' : (f true).run c = .ok (b, c') := by
        rw [← hrun]
        exact congrArg (fun b => (f b).run c) (decide_eq_true heq).symm
      exact htrue c b c' (heq ▸ c.kind_current) hrun'
    · have hrun' : (f false).run c = .ok (b, c') := by
        rw [← hrun]
        exact congrArg (fun b => (f b).run c) (decide_eq_false heq).symm
      exact hfalse c b c' List.nil_prefix hrun'

/-- A choice by the kind of the next token, which is not read. -/
theorem ifAt {q q' : Parser β} (htrue : Reads [k] q R after) (hfalse : Reads [] q' R after) :
    Reads before (do if ← Parser.at? k then q else q') R after := by
  refine at? ?_ ?_
  · rwa [if_pos rfl]
  · rwa [if_neg Bool.false_ne_true]

/-- A token that is eaten is read, and otherwise nothing is. -/
theorem sound_eat (hk : k ≠ .eof) : Sound (Parser.eat k) fun ks b => ks = if b then [k] else [] :=
  ifAt (advance hk fun _ => untold (pure rfl)) (pure rfl)

/-- A token that is taken is one of those that are read. -/
theorem eat {f : Bool → Parser β} (hk : k ≠ .eof)
    (htrue : Reads [] (f true) (fun ks b => R (k :: ks) b) after)
    (hfalse : Reads [] (f false) R after) : Reads before (Parser.eat k >>= f) R after := by
  refine bind (forget (sound_eat hk)) fun ks b hks => ?_
  cases b with
  | true => exact hks ▸ htrue
  | false => exact hks ▸ hfalse

/-- A choice by the kind of the next token, which is read if it is of this kind. -/
theorem ifEat {q q' : Parser β} (hk : k ≠ .eof) (htrue : Reads [] q (fun ks b => R (k :: ks) b) after)
    (hfalse : Reads [] q' R after) : Reads before (do if ← Parser.eat k then q else q') R after := by
  refine eat hk ?_ ?_
  · rwa [if_pos rfl]
  · rwa [if_neg Bool.false_ne_true]

/-- If an expected token is found, it is what was read. -/
theorem sound_expect (hk : k ≠ .eof) : Sound (Parser.expect k) fun ks _ => ks = [k] := by
  have hadvance : Reads [k] (Parser.advance >>= Pure.pure) (fun ks _ => ks = [k]) [] :=
    advance hk fun _ => pure rfl
  rw [bind_pure] at hadvance
  exact ifAt hadvance (fail _)

/-- An expected token in front of what comes after it. -/
theorem expect {f : Span → Parser β} (hk : k ≠ .eof)
    (h : ∀ s, Reads [] (f s) (fun ks b => R (k :: ks) b) after) :
    Reads before (Parser.expect k >>= f) R after :=
  bind (forget (sound_expect hk)) fun _ s hks => hks ▸ h s

/-- If an identifier is found, it is what was read, and its name is the answer. -/
theorem sound_identifier : Sound Parser.identifier fun ks found => ks = [.ident found.1] := by
  refine peek fun k => ?_
  cases k with
  | ident name => exact advance nofun fun _ => pure rfl
  | _ => exact fail _

/-- An identifier in front of what comes after it. -/
theorem identifier {f : Name × Span → Parser β}
    (h : ∀ name s, Reads [] (f (name, s)) (fun ks b => R (.ident name :: ks) b) after) :
    Reads before (Parser.identifier >>= f) R after :=
  bind (forget sound_identifier) fun _ found hks => hks ▸ h found.1 found.2

/-! ### Lists of items -/

open Grammar in
/-- The items of a list are read by the rule for items, with commas between them. -/
theorem sepList {Item : List TokenKind → α → Prop} {item : Parser α} (close : TokenKind)
    (hitem : Sound item Item) :
    ∀ fuel, Sound (Parser.sepList close item fuel) fun ks list => SepBy Item ks list.1 list.2
  | 0 => outOfFuel
  | fuel + 1 => by
      refine ifAt (untold (pure .nil)) (bind hitem fun ks x hx => ifEat nofun ?_ ?_)
      · refine bind (sepList close hitem fuel) fun rest list hlist => pure ?_
        rw [List.append_nil]
        exact .cons hx hlist
      · refine pure ?_
        rw [List.append_nil]
        exact .last hx

end Reads

/-! ### Whole token lists and texts -/

/-- A text is accepted if it has tokens and these are accepted. -/
theorem onText_eq_ok_iff {p : Nat → Parser α} {source : String} {a : α} : onText p source = .ok a ↔
    ∃ tokens, tokenize source = .ok tokens ∧ onTokens p tokens = .ok a := by
  unfold onText
  cases htokens : tokenize source with
  | ok tokens => simp
  | error e => simp

/-- A token list is accepted by a run from its start, with fuel for one token more. -/
theorem run_of_onTokens {p : Nat → Parser α} {tokens : List Token} {a : α} (h : onTokens p tokens = .ok a) :
    ∃ c, (p (tokens.length + 1)).run (.start tokens) = .ok (a, c) := by
  unfold onTokens at h
  dsimp only at h
  split at h
  next b c hrun => exact ⟨c, Except.ok.inj h ▸ hrun⟩
  next => cases h
  next => cases h

end Parser

end Freshen
