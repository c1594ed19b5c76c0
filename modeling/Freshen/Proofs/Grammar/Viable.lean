import Mathlib
import Freshen.Grammar.Parser
import Freshen.Proofs.Grammar.Reads

/-!
# Where a parser stops

A calculus for statements of the form: a parser stops only at a token that cannot come next. The tokens
that it read before can be completed, and it stops at this token whatever follows it.

- `Cursor.unread`, `Cursor.Reaches`: cursors before and after some tokens.
- `Cursor.Shows`: two cursors at which a parser that looks at one token sees the same.
- `Parser.Viable`: the statement. It speaks of parsers `q 0`, `q 1`, ..., which are one rule with more and
  more fuel, because a rule is given more fuel on a longer token list. It says too that fuel does not run out.

**Key results.** One rule for each step that a parser is made of, and `Viable.sepList` for lists of items.
-/

namespace Freshen

/-- A token of this kind does not end the text. -/
class TokenKind.Proper (k : TokenKind) : Prop where
  ne_eof : k ≠ .eof

namespace TokenKind

/-- An identifier does not end the text. -/
instance (name : Name) : Proper (.ident name) := ⟨fun h => by cases h⟩
/-- A keyword does not end the text. -/
instance (word : Keyword) : Proper (.keyword word) := ⟨fun h => by cases h⟩
/-- A mark does not end the text. -/
instance (mark : Mark) : Proper (.mark mark) := ⟨fun h => by cases h⟩
/-- An integer does not end the text. -/
instance (value : Int64) : Proper (.int value) := ⟨fun h => by cases h⟩
/-- A string does not end the text. -/
instance (value : String) : Proper (.str value) := ⟨fun h => by cases h⟩

end TokenKind

namespace Cursor

/-! ### Cursors before and after some tokens -/

/-- The cursor before the tokens `read`, where `last` is the place of the token before them. -/
def unread (c : Cursor) (read : List Token) (last : Span) : Cursor :=
  { c with rest := read ++ c.rest, last := last }

/-- Reading the tokens `read`, none of which ends the text, leads from `c` to `c'`. -/
structure Reaches (c : Cursor) (read : List Token) (c' : Cursor) : Prop where
  eq_unread : c = c'.unread read c.last
  eof_notMem : .eof ∉ read.map Token.kind

/-- The same token is next at both cursors, and the one before stands at the same place. -/
structure Shows (d c : Cursor) : Prop where
  current_eq : d.current = c.current
  last_eq : d.last = c.last

/-- The token at the cursor is of the kind `k`. -/
def At (k : TokenKind) (c : Cursor) : Prop := c.current.kind = k

/-- Any cursor. -/
def Anywhere (_ : Cursor) : Prop := True

variable {c c' c₁ c₂ d : Cursor} {read read' : List Token}

/-- Reading nothing stays where it is. -/
theorem Reaches.refl (c : Cursor) : c.Reaches [] c := ⟨rfl, List.not_mem_nil⟩

/-- What is read in two goes is read in one. -/
theorem Reaches.trans (h : c.Reaches read c₁) (h' : c₁.Reaches read' c₂) :
    c.Reaches (read ++ read') c₂ := by
  constructor
  · rw [h.eq_unread, h'.eq_unread]
    simp [unread]
  · simp [h.eof_notMem, h'.eof_notMem]

/-- The kinds that are left begin with those that are read. -/
theorem Reaches.kinds_eq (h : c.Reaches read c') : c.kinds = read.map Token.kind ++ c'.kinds := by
  rw [h.eq_unread]
  simp [kinds, unread]

/-- As many tokens fewer are left as are read. -/
theorem Reaches.length_eq (h : c.Reaches read c') :
    c.rest.length = read.length + c'.rest.length := by
  rw [h.eq_unread]
  simp [unread]

/-- At a token that does not end the text, going on reads this token. -/
theorem reaches_next (h : c.current.kind ≠ .eof) : c.Reaches [c.current] c.next := by
  obtain ⟨_ | ⟨t, rest⟩, last, finish⟩ := c
  · exact absurd rfl h
  · have ht : t.kind ≠ .eof := h
    constructor
    · simp [unread, next, current, ht]
    · simpa [current] using ht.symm

/-- After a step, the token that was read last is the one that was next. -/
theorem last_next (h : c.current.kind ≠ .eof) : c.next.last = c.current.span := by
  obtain ⟨_ | ⟨t, rest⟩, last, finish⟩ := c
  · exact absurd rfl h
  · have ht : t.kind ≠ .eof := h
    simp [next, current, ht]

/-- A step over the first of the tokens that come before leaves the others. -/
theorem next_unread_cons {t : Token} (h : t.kind ≠ .eof) (d : Cursor) (read : List Token) (last : Span) :
    (d.unread (t :: read) last).next = d.unread read t.span := by
  simp [unread, next, h]

/-- Before tokens that are read the same is shown, if the same is shown after them. -/
theorem Shows.unread (h : d.Shows c') (hreach : c.Reaches read c') :
    (d.unread read c.last).Shows c := by
  constructor
  · rw [hreach.eq_unread]
    cases read with
    | nil => exact h.current_eq
    | cons t read => rfl
  · rfl

/-- To go back by nothing stays where the same token is next. -/
theorem Shows.unread_nil (h : d.Shows c) : d.unread [] c.last = d := by
  rw [← h.last_eq]
  rfl

/-- To go back by two rows of tokens is to go back by the later one first. -/
theorem unread_append (d : Cursor) (last last' : Span) :
    d.unread (read ++ read') last = (d.unread read' last').unread read last := by
  simp [unread]

end Cursor

namespace Parser

open Cursor

variable {α β : Type}

/-- How each of the parsers `q m` ends at the cursor `c`: they answer, or they stop at a token, where tokens in
`R` begin with those that they read before. Either is settled by the tokens that were read and the next one:
wherever these are the same, each of the parsers ends like this. -/
inductive Ends (q : Nat → Parser α) (R : List TokenKind → α → Prop) (c : Cursor) : Prop where
  | answers {read : List Token} {c' : Cursor} (a : α) (hreach : c.Reaches read c')
      (hagree : ∀ m (d : Cursor), d.Shows c' → (q m).run (d.unread read c.last) = .ok (a, d)) : Ends q R c
  | stops {read : List Token} {c' : Cursor} {more : List TokenKind} {a : α} (expected : Expected)
      (hreach : c.Reaches read c') (heof : .eof ∉ more) (hR : R (read.map Token.kind ++ more) a)
      (hagree : ∀ m (d : Cursor), d.Shows c' →
        (q m).run (d.unread read c.last) = .error (.unexpected expected c'.current)) : Ends q R c

/-- Some tokens are in `R`, and each `q m` ends as said on cursors in `Pre` with fewer than `n` tokens left. -/
structure Viable (n : Nat) (Pre : Cursor → Prop) (q : Nat → Parser α) (R : List TokenKind → α → Prop) :
    Prop where
  inhabited : ∃ ks a, .eof ∉ ks ∧ R ks a
  ends : ∀ c, Pre c → c.rest.length < n → Ends q R c

variable {n : Nat} {Pre Mid : Cursor → Prop} {k : TokenKind} {a : α} {c c₁ : Cursor}
  {read : List Token} {q : Nat → Parser α} {P Q : List TokenKind → α → Prop}
  {R : List TokenKind → β → Prop}

/-- A parser that goes on after another one answered. -/
theorem run_bind_of_ok {p : Parser α} {c' : Cursor} (h : p.run c = .ok (a, c')) (f : α → Parser β) :
    (p >>= f).run c = (f a).run c' := by
  rw [StateT.run_bind, h]
  rfl

/-- What comes after a parser that stops is not begun. -/
theorem run_bind_of_error {p : Parser α} {stop : Stop} (h : p.run c = .error stop) (f : α → Parser β) :
    (p >>= f).run c = .error stop := by
  rw [StateT.run_bind, h]
  rfl

/-- What a parser does wherever certain tokens and the next one are the same, it does where they are. -/
theorem run_of_reaches {p : Parser α} {c' : Cursor} (hreach : c.Reaches read c')
    {result : Cursor → Except Stop (α × Cursor)}
    (h : ∀ d : Cursor, d.Shows c' → p.run (d.unread read c.last) = result d) : p.run c = result c' := by
  have hrun := h c' ⟨rfl, rfl⟩
  rwa [← hreach.eq_unread] at hrun

/-- If one of the parsers answers, they all do. -/
theorem Ends.run_eq_ok (h : Ends q P c) {m : Nat} {r : α × Cursor} (hrun : (q m).run c = .ok r)
    (m' : Nat) : (q m').run c = .ok r := by
  cases h with
  | answers a hreach hagree =>
      rw [run_of_reaches hreach (hagree m)] at hrun
      rw [run_of_reaches hreach (hagree m'), hrun]
  | stops expected hreach heof hP hagree =>
      rw [run_of_reaches hreach (hagree m)] at hrun
      exact absurd hrun nofun

/-- Parsers that first read `read` and then do what other ones do. -/
theorem Ends.after (h : Ends q (fun ks a => P (read.map Token.kind ++ ks) a) c₁)
    (hreach : c.Reaches read c₁) {q' : Nat → Parser α}
    (hq : ∀ m (d : Cursor), d.Shows c₁ → (q' m).run (d.unread read c.last) = (q m).run d) :
    Ends q' P c := by
  cases h with
  | @answers read' c' a hreach' hagree =>
      refine .answers a (hreach.trans hreach') fun m d hd => ?_
      rw [d.unread_append c.last c₁.last, hq m _ (hd.unread hreach')]
      exact hagree m d hd
  | @stops read' c' more a expected hreach' heof hP hagree =>
      rw [← List.append_assoc, ← List.map_append] at hP
      refine .stops expected (hreach.trans hreach') heof hP fun m d hd => ?_
      rw [d.unread_append c.last c₁.last, hq m _ (hd.unread hreach')]
      exact hagree m d hd

/-- Parsers that do what other ones do at the same place. -/
theorem Ends.congr (h : Ends q P c) {q' : Nat → Parser α}
    (hq : ∀ m (d : Cursor), d.Shows c → (q' m).run d = (q m).run d) : Ends q' P c := by
  have hnil : Ends q (fun ks a => P (([] : List Token).map Token.kind ++ ks) a) c := h
  refine hnil.after (.refl c) fun m d hd => ?_
  rw [hd.unread_nil]
  exact hq m d hd

namespace Viable

/-- A rule that is viable with some tokens left is so with fewer. -/
theorem mono {m : Nat} (h : Viable n Pre q P) (hm : m ≤ n) : Viable m Pre q P where
  inhabited := h.inhabited
  ends c hc hlength := h.ends c hc (hlength.trans_le hm)

/-- Where the parser stands need not be known. -/
theorem weaken (h : Viable n Mid q P) (hpre : ∀ c, Pre c → Mid c) : Viable n Pre q P where
  inhabited := h.inhabited
  ends c hc := h.ends c (hpre c hc)

/-- A rule that is viable anywhere is so at each cursor. -/
theorem forget (h : Viable n Anywhere q P) : Viable n Pre q P := h.weaken fun _ _ => trivial

/-- What is known of the tokens and the answer may be weakened. -/
theorem imp (h : Viable n Pre q P) (himp : ∀ ks a, P ks a → Q ks a) : Viable n Pre q Q where
  inhabited := by
    obtain ⟨ks, a, heof, ha⟩ := h.inhabited
    exact ⟨ks, a, heof, himp ks a ha⟩
  ends c hc hlength := by
    cases h.ends c hc hlength with
    | answers a hreach hagree => exact .answers a hreach hagree
    | stops expected hreach heof ha hagree => exact .stops expected hreach heof (himp _ _ ha) hagree

/-- A parser that only answers is viable if no tokens go with its answer. -/
theorem pure (h : P [] a) : Viable n Pre (fun _ => Pure.pure a) P where
  inhabited := ⟨[], a, List.not_mem_nil, h⟩
  ends c _ _ := by
    refine .answers a (.refl c) fun m d hd => ?_
    rw [hd.unread_nil]
    rfl

/-- A parser may stop where there is something that it could have gone on with. -/
theorem fail (expected : Expected) (h : ∃ ks a, .eof ∉ ks ∧ P ks a) :
    Viable n Pre (fun _ => Parser.fail expected) P where
  inhabited := h
  ends c _ _ := by
    obtain ⟨ks, a, heof, ha⟩ := h
    refine .stops expected (.refl c) heof ha fun m d hd => ?_
    rw [hd.unread_nil, ← hd.current_eq]
    rfl

/-- Without fuel nothing is said, because fewer than no tokens are never left. -/
theorem none (hn : n ≤ 0) (h : ∃ ks a, .eof ∉ ks ∧ P ks a) : Viable n Pre q P where
  inhabited := h
  ends _ _ hlength := absurd (hlength.trans_le hn) (Nat.not_lt_zero _)

/-- Parsers one after the other. The tokens that the first one reads are known to be in `P`, and each of
its answers can be gone on with. -/
theorem bind {f : Nat → α → Parser β} (hq : Viable n Pre q P)
    (hread : ∀ m c a c', Pre c → (q m).run c = .ok (a, c') →
      (∃ ks, c.kinds = ks ++ c'.kinds ∧ .eof ∉ ks ∧ P ks a) ∧ Mid c')
    (hf : ∀ ks a, P ks a →
      Viable (n - ks.length) Mid (fun m => f m a) fun ks' b => R (ks ++ ks') b) :
    Viable n Pre (fun m => q m >>= f m) R := by
  constructor
  · obtain ⟨ks, a, heof, hP⟩ := hq.inhabited
    obtain ⟨ks', b, heof', hR⟩ := (hf ks a hP).inhabited
    exact ⟨ks ++ ks', b, by simp [heof, heof'], hR⟩
  · intro c hc hlength
    cases hq.ends c hc hlength with
    | @answers read c' a hreach hagree =>
        have hrun := run_of_reaches hreach (hagree 0)
        obtain ⟨⟨ks, hks, -, hP⟩, hmid⟩ := hread 0 c a c' hc hrun
        obtain rfl : read.map Token.kind = ks := by
          rw [hreach.kinds_eq] at hks
          exact List.append_cancel_right hks
        have hrest := hreach.length_eq
        have hends := (hf _ a hP).ends c' hmid (by rw [List.length_map]; omega)
        exact hends.after hreach fun m d hd => run_bind_of_ok (hagree m d hd) (f m)
    | stops expected hreach heof hP hagree =>
        obtain ⟨more, b, heof', hR⟩ := (hf _ _ hP).inhabited
        rw [List.append_assoc] at hR
        refine .stops expected hreach ?_ hR fun m d hd => ?_
        · simp [heof, heof']
        · exact run_bind_of_error (hagree m d hd) (f m)

/-- The tokens that the first parser reads are known from what stands ahead of it. -/
theorem bindReads {f : Nat → α → Parser β} {before after : List TokenKind} (hq : Viable n Pre q P)
    (hread : ∀ m, Reads before (q m) P after) (hbefore : ∀ c, Pre c → before <+: c.ahead)
    (hf : ∀ ks a, P ks a →
      Viable (n - ks.length) (fun c => after <+: c.ahead) (fun m => f m a) fun ks' b => R (ks ++ ks') b) :
    Viable n Pre (fun m => q m >>= f m) R := by
  refine hq.bind (fun m c a c' hc hrun => ?_) hf
  obtain ⟨ks, hks, heof, hP, hafter⟩ := hread m c a c' (hbefore c hc) hrun
  exact ⟨⟨ks, hks, heof, hP⟩, hafter⟩

/-- The first parser is a rule that is sound wherever it stands. -/
theorem andThen {f : Nat → α → Parser β} (hq : Viable n Pre q P) (hread : ∀ m, Sound (q m) P)
    (hf : ∀ ks a, P ks a →
      Viable (n - ks.length) Anywhere (fun m => f m a) fun ks' b => R (ks ++ ks') b) :
    Viable n Pre (fun m => q m >>= f m) R :=
  hq.bindReads hread (fun _ _ => List.nil_prefix) fun ks a ha => (hf ks a ha).forget

/-- The first parser is such a rule, and what it answers is all that is still missing. -/
theorem andReturn (hq : Viable n Anywhere q P) (hread : ∀ m, Sound (q m) P) {make : α → β}
    (hmake : ∀ ks a, P ks a → R ks (make a)) :
    Viable n Pre (fun m => q m >>= fun a => Pure.pure (make a)) R := by
  refine hq.forget.andThen hread fun ks a ha => pure ?_
  rw [List.append_nil]
  exact hmake ks a ha

/-! ### Looking ahead and reading one token -/

/-- The next token may be looked at. -/
theorem current {f : Nat → Token → Parser β} (h : ∀ t, Viable n Pre (fun m => f m t) R) :
    Viable n Pre (fun m => Parser.current >>= f m) R where
  inhabited := (h ⟨.eof, .nowhere⟩).inhabited
  ends c hc hlength := by
    refine ((h c.current).ends c hc hlength).congr fun m d hd => ?_
    rw [← hd.current_eq]
    rfl

/-- The span that was read last may be asked for. -/
theorem lastSpan {f : Nat → Span → Parser β} (h : ∀ s, Viable n Pre (fun m => f m s) R) :
    Viable n Pre (fun m => Parser.lastSpan >>= f m) R where
  inhabited := (h .nowhere).inhabited
  ends c hc hlength := by
    refine ((h c.last).ends c hc hlength).congr fun m d hd => ?_
    rw [← hd.last_eq]
    rfl

/-- The kind of the next token is known after looking at it. -/
theorem peekAt {f : Nat → TokenKind → Parser β}
    (h : ∀ k, Viable n (fun c => Pre c ∧ c.At k) (fun m => f m k) R) :
    Viable n Pre (fun m => Parser.peek >>= f m) R where
  inhabited := (h .eof).inhabited
  ends c hc hlength := by
    refine ((h c.current.kind).ends c ⟨hc, rfl⟩ hlength).congr fun m d hd => ?_
    rw [← hd.current_eq]
    rfl

/-- The kind of the next token may be looked at, after which the rule may rely on it. -/
theorem peek {f : Nat → TokenKind → Parser β} (h : ∀ k, Viable n (At k) (fun m => f m k) R) :
    Viable n Pre (fun m => Parser.peek >>= f m) R :=
  peekAt fun k => (h k).weaken fun _ hc => hc.2

/-- A token that is next and does not end the text is read. -/
theorem advance [hk : k.Proper] {f : Nat → Span → Parser β}
    (h : ∀ s, Viable (n - 1) Anywhere (fun m => f m s) fun ks b => R (k :: ks) b) :
    Viable n (At k) (fun m => Parser.advance >>= f m) R where
  inhabited := by
    obtain ⟨ks, b, heof, hR⟩ := (h .nowhere).inhabited
    exact ⟨k :: ks, b, by simp [hk.ne_eof.symm, heof], hR⟩
  ends c hc hlength := by
    obtain rfl : c.current.kind = k := hc
    have hreach := reaches_next hk.ne_eof
    have hrest := hreach.length_eq
    rw [List.length_singleton] at hrest
    refine ((h c.current.span).ends c.next trivial (by omega)).after hreach fun m d hd => ?_
    have hlast : c.next.last = c.current.span := last_next hk.ne_eof
    change (f m c.current.span).run (d.unread [c.current] c.last).next = _
    rw [next_unread_cons hk.ne_eof, ← hlast, hd.unread_nil]

/-- After a test that succeeds, the rule may rely on the kind in question. -/
theorem at? {f : Nat → Bool → Parser β} (htrue : Viable n (At k) (fun m => f m true) R)
    (hfalse : Viable n Anywhere (fun m => f m false) R) :
    Viable n Pre (fun m => Parser.at? k >>= f m) R := by
  change Viable n Pre (fun m => Parser.peek >>= fun k' => f m (decide (k' = k))) R
  refine peek fun k' => ?_
  by_cases hk : k' = k
  · subst hk
    rwa [decide_eq_true rfl]
  · rw [decide_eq_false hk]
    exact hfalse.forget

/-- A choice by the kind of the next token, which is not read. -/
theorem ifAt {q₁ q₂ : Nat → Parser β} (htrue : Viable n (At k) q₁ R) (hfalse : Viable n Anywhere q₂ R) :
    Viable n Pre (fun m => do if ← Parser.at? k then q₁ m else q₂ m) R := at? htrue hfalse

/-- After a token was taken, the rule needs to be viable with one token less. -/
theorem eat [k.Proper] {f : Nat → Bool → Parser β}
    (htrue : Viable (n - 1) Anywhere (fun m => f m true) fun ks b => R (k :: ks) b)
    (hfalse : Viable n Anywhere (fun m => f m false) R) :
    Viable n Pre (fun m => Parser.eat k >>= f m) R := by
  have heat : ∀ f : Bool → Parser β, (Parser.eat k >>= f) =
      (do if ← Parser.at? k then Parser.advance >>= fun _ => f true else f false) := by
    intro f
    rw [Parser.eat, bind_assoc]
    congr 1
    funext b
    cases b <;> rfl
  simp only [heat]
  exact ifAt (advance fun _ => htrue) hfalse

/-- A choice by the kind of the next token, which is read if it is of this kind. -/
theorem ifEat [k.Proper] {q₁ q₂ : Nat → Parser β}
    (htrue : Viable (n - 1) Anywhere q₁ fun ks b => R (k :: ks) b) (hfalse : Viable n Anywhere q₂ R) :
    Viable n Pre (fun m => do if ← Parser.eat k then q₁ m else q₂ m) R := eat htrue hfalse

/-- If a token of the kind `k` is not next, it could have been. -/
theorem expect [k.Proper] {f : Nat → Span → Parser β}
    (h : ∀ s, Viable (n - 1) Anywhere (fun m => f m s) fun ks b => R (k :: ks) b) :
    Viable n Pre (fun m => Parser.expect k >>= f m) R := by
  have hexpect : ∀ f : Span → Parser β, (Parser.expect k >>= f) =
      (do if ← Parser.at? k then Parser.advance >>= f else Parser.fail (.token k)) := by
    intro f
    rw [Parser.expect, bind_assoc]
    congr 1
    funext b
    cases b <;> rfl
  have hread := advance h
  simp only [hexpect]
  exact ifAt hread (fail _ hread.inhabited)

/-- An identifier in front of what comes after it. -/
theorem identifier {f : Nat → Name × Span → Parser β}
    (h : ∀ name s, Viable (n - 1) Anywhere (fun m => f m (name, s)) fun ks b => R (.ident name :: ks) b) :
    Viable n Pre (fun m => Parser.identifier >>= f m) R := by
  have hread := fun name => advance (k := .ident name) (h name)
  have hfail : ∀ Pre, Viable n Pre (fun _ => Parser.fail .identifier) R :=
    fun _ => fail _ (hread "").inhabited
  simp only [Parser.identifier, bind_assoc]
  refine peek fun k => ?_
  cases k with
  | ident name => exact hread name
  | _ => exact hfail _

open Grammar in
/-- A list of items can be completed after each item and in each item. -/
theorem sepList {Item : List TokenKind → α → Prop} {item : Nat → Parser α} (close : TokenKind)
    (hread : ∀ m, Sound (item m) Item) {fuel : Nat} (hitem : Viable n Anywhere item Item)
    (hfuel : n ≤ fuel) :
    Viable n Anywhere (fun m => Parser.sepList close (item m) (m + fuel))
      fun ks list => SepBy Item ks list.1 list.2 := by
  induction fuel generalizing n with
  | zero => exact none hfuel ⟨[], ([], false), List.not_mem_nil, .nil⟩
  | succ fuel ih =>
      refine ifAt (pure .nil) (hitem.andThen hread fun ks x hx => ifEat ?_ ?_)
      · have hmore := ih (hitem.mono (show n - ks.length - 1 ≤ n by omega)) (by omega)
        exact hmore.andReturn (fun m => Reads.sepList close (hread m) (m + fuel)) fun _ _ hlist =>
          .cons hx hlist
      · refine pure ?_
        rw [List.append_nil]
        exact .last hx

open Grammar in
/-- A list between two tokens, of which the first is next. -/
theorem delimited {Item : List TokenKind → α → Prop} {item : Nat → Parser α} {opening close : TokenKind}
    [opening.Proper] [close.Proper] (make : List α → Bool → Span → β)
    (hread : ∀ m, Sound (item m) Item) {fuel : Nat} (hitem : Viable (n - 1) Anywhere item Item)
    (hfuel : n - 1 ≤ fuel)
    (hmake : ∀ {ks xs comma} span, SepBy Item ks xs comma →
      R (opening :: (ks ++ [close])) (make xs comma span)) :
    Viable n (At opening) (fun m => do
      let start ← Parser.advance
      let (xs, comma) ← Parser.sepList close (item m) (m + fuel)
      let finish ← Parser.expect close
      return make xs comma (start.merge finish)) R := by
  apply advance
  intro start
  apply (sepList close hread hitem hfuel).andThen (fun m => Reads.sepList close (hread m) (m + fuel))
  intro ks list hlist
  exact expect fun finish => pure (hmake _ hlist)

end Viable

end Parser

end Freshen
