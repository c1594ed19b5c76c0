import Mathlib
import Freshen.Proofs.Grammar.FirstError

/-!
# Rules that end by themselves

A block ends with its closing brace, and so does a callable: what they are read as does not depend on the
tokens behind them. So callables can be read in front of others.

- `Parser.Settled`: if the parser answers at a cursor, it gives this answer wherever the tokens that it read
  and the next one stand.
- `Parser.SelfDelimiting`: the same wherever the tokens that it read stand, whatever comes after them.

**Key results.** `SelfDelimiting.bind`: a parser that ends by itself after one that need not;
`Grammar.selfDelimiting_callable`; `Program.ofTokens_append`: a program in front of another one.
-/

namespace Freshen

namespace Parser

open Cursor

variable {α β : Type} {n : Nat} {c : Cursor} {p : Parser α} {k : TokenKind}

/-- If the parser answers at `c`, the tokens that it reads and the next one settle the answer. -/
def Settled (p : Parser α) (c : Cursor) : Prop :=
  ∀ a c', p.run c = .ok (a, c') → ∃ read, c.Reaches read c' ∧
    ∀ d : Cursor, d.Shows c' → p.run (d.unread read c.last) = .ok (a, d)

/-- If the parser answers at `c`, it reads tokens, and these settle the answer. -/
def SelfDelimiting (p : Parser α) (c : Cursor) : Prop :=
  ∀ a c', p.run c = .ok (a, c') → ∃ read, read ≠ [] ∧ c.Reaches read c' ∧
    ∀ d : Cursor, d.last = c'.last → p.run (d.unread read c.last) = .ok (a, d)

/-- A viable rule is settled where fewer tokens are left than it has fuel. -/
theorem Viable.settled {R : List TokenKind → α → Prop} {q : Nat → Parser α}
    (h : Viable n Anywhere q R) (hc : c.rest.length < n) : Settled (q 0) c := by
  intro a c' hrun
  cases h.ends c trivial hc with
  | stops expected hreach heof hR hagree =>
      rw [run_of_reaches hreach (hagree 0)] at hrun
      cases hrun
  | answers b hreach hagree =>
      rw [run_of_reaches hreach (hagree 0)] at hrun
      obtain ⟨rfl, rfl⟩ := Prod.mk.inj (Except.ok.inj hrun)
      exact ⟨_, hreach, hagree 0⟩

/-- An expected token settles that it was found. -/
theorem settled_expect [k.Proper] : Settled (Parser.expect k) c := by
  have h : Viable (c.rest.length + 1) Anywhere (fun _ => Parser.expect k >>= Pure.pure)
      fun ks _ => ks = [k] := .expect fun _ => .pure rfl
  have hsettled := h.settled (Nat.lt_succ_self _)
  rwa [bind_pure] at hsettled

/-- An identifier settles its name. -/
theorem settled_identifier : Settled Parser.identifier c := by
  have h : Viable (c.rest.length + 1) Anywhere (fun _ => Parser.identifier >>= Pure.pure)
      fun ks found => ks = [.ident found.1] := .identifier fun _ _ => .pure rfl
  have hsettled := h.settled (Nat.lt_succ_self _)
  rwa [bind_pure] at hsettled

namespace SelfDelimiting

/-- After a parser that the next token settles, because it is read then. -/
theorem bind {f : α → Parser β} (hp : Settled p c)
    (hf : ∀ a c', p.run c = .ok (a, c') → c'.rest.length ≤ c.rest.length → SelfDelimiting (f a) c') :
    SelfDelimiting (p >>= f) c := by
  intro b c₂ hrun
  obtain ⟨a, c₁, hfirst, hsecond⟩ := run_bind_eq_ok hrun
  obtain ⟨read, hreach, hagree⟩ := hp a c₁ hfirst
  have hlength := hreach.length_eq
  obtain ⟨read', hne, hreach', hagree'⟩ := hf a c₁ hfirst (by omega) b c₂ hsecond
  refine ⟨read ++ read', by simp [hne], hreach.trans hreach', fun d hd => ?_⟩
  have hshows : (d.unread read' c₁.last).Shows c₁ := by
    constructor
    · rw [hreach'.eq_unread]
      obtain ⟨t, ts, rfl⟩ := List.exists_cons_of_ne_nil hne
      rfl
    · rfl
  rw [d.unread_append c.last c₁.last, run_bind_of_ok (hagree _ hshows) f]
  exact hagree' d hd

/-- What is made of a settled answer is settled. -/
theorem map (h : SelfDelimiting p c) (g : α → β) :
    SelfDelimiting (p >>= fun a => Pure.pure (g a)) c := by
  intro b c' hrun
  obtain ⟨a, c₁, hfirst, hsecond⟩ := run_bind_eq_ok hrun
  obtain ⟨rfl, rfl⟩ := Prod.mk.inj (Except.ok.inj hsecond)
  obtain ⟨read, hne, hreach, hagree⟩ := h a c₁ hfirst
  exact ⟨read, hne, hreach, fun d hd => run_bind_of_ok (hagree d hd) _⟩

/-- One token that does not end the text. -/
theorem advance (hc : c.current.kind ≠ .eof) : SelfDelimiting Parser.advance c := by
  intro s c' hrun
  obtain ⟨rfl, rfl⟩ := Prod.mk.inj (Except.ok.inj hrun)
  refine ⟨[c.current], List.cons_ne_nil _ _, reaches_next hc, fun d hd => ?_⟩
  have hnext : (d.unread [c.current] c.last).next = d := by
    rw [next_unread_cons hc, ← last_next hc, ← hd]
    rfl
  change Except.ok (c.current.span, (d.unread [c.current] c.last).next) = _
  rw [hnext]

/-- A parser that is out of fuel has no answer to settle. -/
theorem outOfFuel : SelfDelimiting (Parser.outOfFuel : Parser α) c := by
  intro a c' hrun
  cases hrun

end SelfDelimiting

/-- What a rule does that first asks for a token. -/
theorem run_expect_bind (f : Span → Parser β) (c : Cursor) : (Parser.expect k >>= f).run c =
    if c.current.kind = k then (f c.current.span).run c.next
    else .error (.unexpected (.token k) c.current) := by
  change ((if decide (c.current.kind = k) then Parser.advance else Parser.fail (.token k)) >>= f).run c = _
  by_cases hk : c.current.kind = k
  · rw [if_pos hk, decide_eq_true hk]
    rfl
  · rw [if_neg hk, decide_eq_false hk]
    rfl

/-- It does not look at what was read before. -/
theorem run_expect_bind_last [hk : k.Proper] (f : Span → Parser β) (c : Cursor) (last : Span) :
    (Parser.expect k >>= f).run { c with last := last } = (Parser.expect k >>= f).run c := by
  have hcurrent : Cursor.current { c with last := last } = c.current := rfl
  rw [run_expect_bind, run_expect_bind, hcurrent]
  split
  case isFalse => rfl
  case isTrue h =>
    have hnext : Cursor.next { c with last := last } = c.next := by
      obtain ⟨_ | ⟨t, ts⟩, last', finish⟩ := c
      · exact absurd h hk.ne_eof.symm
      · have ht : t.kind ≠ .eof := fun heof => hk.ne_eof (h.symm.trans heof)
        simp only [Cursor.next, if_neg ht]
    rw [hnext]

end Parser

namespace Grammar

open Freshen.Parser Cursor

variable {n fuel : Nat} {c : Cursor}

/-- After an expected token fewer tokens are left. -/
theorem length_lt_of_expect {k : TokenKind} [hk : k.Proper] {s : Span} {c' : Cursor}
    (h : (expect k).run c = .ok (s, c')) : c'.rest.length < c.rest.length := by
  obtain ⟨ks, hks, -, rfl, -⟩ := Reads.sound_expect hk.ne_eof c s c' List.nil_prefix h
  have hlength := congrArg List.length hks
  simp only [Cursor.kinds, List.length_append, List.length_map, List.length_singleton] at hlength
  omega

/-- A block ends with its closing brace, whatever comes after it. -/
theorem selfDelimiting_block (hn : n ≤ fuel) (hc : c.rest.length < n) :
    SelfDelimiting (block fuel) c := by
  cases fuel with
  | zero => exact .outOfFuel
  | succ fuel =>
      have hsound := fun i => sound_stmt (sound_block (i + fuel)) (i + (fuel + 1))
      have hblock := viable_block (show n - 1 ≤ fuel by omega)
      have hstmt := viable_stmt (fun i => sound_block (i + fuel)) hblock (show n - 1 ≤ fuel + 1 by omega)
      have hstmts := viable_stmts hsound hstmt le_rfl (show n - 1 ≤ fuel + 1 by omega)
      refine .bind settled_expect fun opening c₁ h₁ _ => ?_
      have h₁ := length_lt_of_expect h₁
      have hsettled := hstmts.settled (show c₁.rest.length < n - 1 by omega)
      rw [Nat.zero_add, Nat.zero_add] at hsettled
      refine .bind hsettled fun body c₂ h₂ _ => ?_
      -- the statements end before a closing brace
      have hread := reads_stmts (sound_stmt (sound_block fuel) (fuel + 1)) (fuel + 1)
      obtain ⟨-, -, -, -, hbrace⟩ := hread c₁ body c₂ List.nil_prefix h₂
      have hkind := c₂.kind_eq_of_ahead hbrace
      exact (SelfDelimiting.advance (by rw [hkind]; exact TokenKind.Proper.ne_eof)).map _

/-- A callable ends with the block that is its body, whatever comes after it. -/
theorem selfDelimiting_callable (hn : n ≤ fuel) (hc : c.rest.length < n) :
    SelfDelimiting (callable fuel) c := by
  refine .bind settled_expect fun start c₁ _ h₁ => ?_
  refine .bind settled_identifier fun name c₂ _ h₂ => ?_
  refine .bind settled_expect fun opening c₃ _ h₃ => ?_
  have hparams := Viable.sepList (.mark .rparen) (fun i => sound_parameter (i + fuel))
    (viable_parameter hn) hn
  have hsettled := hparams.settled (show c₃.rest.length < n by omega)
  rw [Nat.zero_add] at hsettled
  refine .bind hsettled fun items c₄ _ h₄ => ?_
  refine .bind settled_expect fun closing c₅ _ h₅ => ?_
  exact (selfDelimiting_block hn (by omega)).map _

/-! ### Callables up to the end of the text -/

section Callables

variable {p : Parser Callable} {loop loop' : Nat} {cs cs' : List Callable} {c₁ d e : Cursor}
  {body : List Token} {t : Token}

/-- At the end of the text no callables are left. -/
theorem run_callables_eof (h : c.current.kind = .eof) :
    (callables p (loop + 1)).run c = .ok ([], c) := by
  change (if decide (c.current.kind = .eof) then _ else _ : Parser (List Callable)).run c = _
  rw [decide_eq_true h]
  rfl

/-- Before the end of the text, a callable is read and then the others. -/
theorem run_callables_cons (h : c.current.kind ≠ .eof) : (callables p (loop + 1)).run c =
    (p >>= fun x => callables p loop >>= fun xs => pure (x :: xs)).run c := by
  change (if decide (c.current.kind = .eof) then _ else _ : Parser (List Callable)).run c = _
  rw [decide_eq_false h]
  rfl

/-- Callables are read up to the end of the text, or there is a first one. -/
theorem callables_cases (h : (callables p loop).run c = .ok (cs, e)) :
    (c.current.kind = .eof ∧ cs = [] ∧ e = c) ∨ (c.current.kind ≠ .eof ∧ ∃ x xs c₁ loop',
      loop = loop' + 1 ∧ p.run c = .ok (x, c₁) ∧ (callables p loop').run c₁ = .ok (xs, e) ∧
      cs = x :: xs) := by
  cases loop with
  | zero => cases h
  | succ loop =>
      by_cases heof : c.current.kind = .eof
      · rw [run_callables_eof heof] at h
        obtain ⟨rfl, rfl⟩ := Prod.mk.inj (Except.ok.inj h)
        exact .inl ⟨heof, rfl, rfl⟩
      · rw [run_callables_cons heof] at h
        obtain ⟨x, c₁, hx, h⟩ := run_bind_eq_ok h
        obtain ⟨xs, c₂, hxs, h⟩ := run_bind_eq_ok h
        obtain ⟨rfl, rfl⟩ := Prod.mk.inj (Except.ok.inj h)
        exact .inr ⟨heof, x, xs, c₁, loop, rfl, hx, hxs, rfl⟩

/-- A callable in front of others that are read up to the end of the text. -/
theorem callables_cons {x : Callable} (heof : c.current.kind ≠ .eof) (hx : p.run c = .ok (x, c₁))
    (hcs : (callables p loop).run c₁ = .ok (cs, e)) :
    (callables p (loop + 1)).run c = .ok (x :: cs, e) := by
  rw [run_callables_cons heof, run_bind_of_ok hx, run_bind_of_ok hcs]
  rfl

/-- There are at most as many callables as tokens. -/
theorem length_le_of_callables (hself : ∀ c : Cursor, c.rest.length < n → SelfDelimiting p c)
    (hc : c.rest.length < n) (h : (callables p loop).run c = .ok (cs, e)) :
    cs.length ≤ c.rest.length := by
  induction loop generalizing c cs with
  | zero => cases h
  | succ loop ih =>
      rcases callables_cases h with ⟨-, rfl, -⟩ | ⟨-, x, xs, c₁, loop', hloop, hx, hxs, rfl⟩
      · exact Nat.zero_le _
      · obtain rfl := Nat.succ.inj hloop
        obtain ⟨read, hne, hreach, -⟩ := hself c hc x c₁ hx
        have hlength := hreach.length_eq
        have hpos := List.length_pos_iff.2 hne
        have hle := ih (by omega) hxs
        rw [List.length_cons]
        omega

/-- Callables need fuel for one more than there are, and do not look at what was read before them. -/
theorem run_callables_of_length (hlast : ∀ (c : Cursor) last, p.run { c with last := last } = p.run c)
    (h : (callables p loop).run c = .ok (cs, e)) (hloop : cs.length < loop') (last : Span) :
    ∃ e', (callables p loop').run { c with last := last } = .ok (cs, e') := by
  induction loop generalizing c cs loop' last with
  | zero => cases h
  | succ loop ih =>
      obtain ⟨loop', rfl⟩ := Nat.exists_eq_add_one_of_ne_zero (Nat.ne_zero_of_lt hloop)
      rcases callables_cases h with ⟨heof, rfl, -⟩ | ⟨heof, x, xs, c₁, _, hfuel, hx, hxs, rfl⟩
      · exact ⟨_, run_callables_eof heof⟩
      · obtain rfl := Nat.succ.inj hfuel
        obtain ⟨e', hrest⟩ := ih hxs (Nat.lt_of_succ_lt_succ hloop) c₁.last
        exact ⟨e', callables_cons heof ((hlast c last).trans hx) hrest⟩

/-- Callables up to the end of a text are read in front of others. -/
theorem run_callables_append (hself : ∀ c : Cursor, c.rest.length < n → SelfDelimiting p c)
    (hlast : ∀ (c : Cursor) last, p.run { c with last := last } = p.run c)
    (hbody : .eof ∉ body.map Token.kind) (ht : t.kind = .eof) (hc : c.rest = body ++ [t])
    (hlength : c.rest.length < n) (hcs : (callables p loop).run c = .ok (cs, c₁))
    {loop₂ : Nat} (hcs' : (callables p loop₂).run d = .ok (cs', e))
    (hloop' : body.length + cs'.length < loop') (last : Span) :
    ∃ e', (callables p loop').run (d.unread body last) = .ok (cs ++ cs', e') := by
  induction loop generalizing c cs body loop' last with
  | zero => cases hcs
  | succ loop ih =>
      obtain ⟨loop', rfl⟩ := Nat.exists_eq_add_one_of_ne_zero (Nat.ne_zero_of_lt hloop')
      rcases callables_cases hcs with ⟨heof, rfl, -⟩ | ⟨heof, x, xs, c₂, _, hfuel, hx, hxs, rfl⟩
      · -- the first text has no more callables
        obtain rfl : body = [] := by
          cases body with
          | nil => rfl
          | cons u us =>
              have hu : c.current = u := by rw [Cursor.current, hc]; rfl
              rw [hu] at heof
              exact absurd (heof ▸ List.mem_cons_self) hbody
        exact run_callables_of_length hlast hcs' (by omega) last
      · obtain rfl := Nat.succ.inj hfuel
        obtain ⟨read, hne, hreach, hagree⟩ := hself c hlength x c₂ hx
        -- its tokens are at the start of the first text, because no end of a text is among them
        obtain ⟨body', rfl, hc₂⟩ : ∃ body', body = read ++ body' ∧ c₂.rest = body' ++ [t] := by
          have hrest : read ++ c₂.rest = body ++ [t] := by
            rw [← hc, hreach.eq_unread]
            rfl
          rcases List.append_eq_append_iff.1 hrest with ⟨body', hread, h₂⟩ | ⟨us, rfl, hus⟩
          · exact ⟨body', hread, h₂⟩
          · rcases List.singleton_eq_append_iff.1 hus with ⟨rfl, h₂⟩ | ⟨rfl, -⟩
            · exact ⟨[], by simp, h₂⟩
            · exact absurd hreach.eof_notMem (by simp [ht])
        obtain ⟨u, us, rfl⟩ := List.exists_cons_of_ne_nil hne
        have hcut : d.unread (u :: us ++ body') last =
            { (d.unread body' c₂.last).unread (u :: us) c.last with last := last } := by
          simp [unread]
        have hu : (d.unread (u :: us ++ body') last).current.kind ≠ .eof := by
          intro hu
          exact hreach.eof_notMem (hu ▸ List.mem_cons_self)
        have hx' : p.run (d.unread (u :: us ++ body') last) = .ok (x, d.unread body' c₂.last) := by
          rw [hcut, hlast]
          exact hagree _ rfl
        have hshorter := hreach.length_eq
        rw [List.length_append] at hloop'
        simp only [List.length_cons] at hshorter hloop'
        have hbody' : .eof ∉ body'.map Token.kind := by
          intro h
          exact hbody (by simp only [List.map_append, List.mem_append, h, or_true])
        obtain ⟨e', hrest⟩ := ih hbody' hc₂ (by omega) hxs
          (show body'.length + cs'.length < loop' by omega) c₂.last
        exact ⟨e', callables_cons hu hx' hrest⟩

end Callables

/-- A callable begins with a word, so that it does not look at what was read before. -/
theorem run_callable_last (c : Cursor) (last : Span) :
    (callable fuel).run { c with last := last } = (callable fuel).run c :=
  run_expect_bind_last _ c last

end Grammar

/-! ### Programs -/

namespace Program

open Grammar Freshen.Parser

variable {tokens : List Token} {p q : Program}

/-- With any more fuel the callables of a program are read from the start of its tokens. -/
theorem run_callables_of_ofTokens (h : ofTokens tokens = .ok p) {fuel : Nat}
    (hfuel : tokens.length < fuel) :
    ∃ e, (Grammar.callables (callable fuel) fuel).run (.start tokens) = .ok (p.callables, e) := by
  obtain ⟨more, rfl⟩ := Nat.exists_eq_add_of_le' hfuel
  obtain ⟨c, hrun⟩ := run_of_onTokens_add (fun n => viable_program (le_refl n)) h more
  obtain ⟨cs, e, hcs, hp⟩ := run_bind_eq_ok hrun
  obtain ⟨rfl, rfl⟩ := Prod.mk.inj (Except.ok.inj hp)
  exact ⟨e, hcs⟩

/-- A program has been parsed if its callables are read up to the end of the text. -/
theorem ofTokens_of_run_callables {fuel : Nat} {cs : List Callable} {e : Cursor}
    (hfuel : fuel = tokens.length + 1)
    (h : (Grammar.callables (callable fuel) fuel).run (.start tokens) = .ok (cs, e)) :
    ofTokens tokens = .ok ⟨cs⟩ := by
  have hrun : (program fuel).run (.start tokens) = .ok (⟨cs⟩, e) := by
    rw [program, run_bind_of_ok h]
    rfl
  rw [hfuel] at hrun
  simp [ofTokens, onTokens, hrun]

/-- The tokens of a program, without the end of the text, in front of those of another one. -/
theorem ofTokens_append {body more : List Token} {t u : Token} (hbody : .eof ∉ body.map Token.kind)
    (ht : t.kind = .eof) (hp : ofTokens (body ++ [t]) = .ok p) (hq : ofTokens (more ++ [u]) = .ok q) :
    ofTokens (body ++ (more ++ [u])) = .ok ⟨p.callables ++ q.callables⟩ := by
  obtain ⟨fuel, hfuel⟩ : ∃ fuel, fuel = (body ++ (more ++ [u])).length + 1 := ⟨_, rfl⟩
  have hbodySize : (body ++ [t]).length < fuel := by
    simp only [hfuel, List.length_append, List.length_singleton]
    omega
  have hmoreSize : (more ++ [u]).length < fuel := by
    simp only [hfuel, List.length_append, List.length_singleton]
    omega
  obtain ⟨c₁, hcs⟩ := run_callables_of_ofTokens hp hbodySize
  obtain ⟨e, hcs'⟩ := run_callables_of_ofTokens hq hmoreSize
  have hself : ∀ c : Cursor, c.rest.length < fuel → SelfDelimiting (callable fuel) c :=
    fun c hc => selfDelimiting_callable le_rfl hc
  have hcount : body.length + q.callables.length < fuel := by
    have hle := length_le_of_callables hself hmoreSize hcs'
    change q.callables.length ≤ (more ++ [u]).length at hle
    rw [hfuel, List.length_append]
    omega
  obtain ⟨e', hrun⟩ := run_callables_append hself run_callable_last hbody ht
    (show (Cursor.start (body ++ [t])).rest = body ++ [t] from rfl) hbodySize hcs hcs' hcount .nowhere
  have hstart : (Cursor.start (more ++ [u])).unread body .nowhere =
      Cursor.start (body ++ (more ++ [u])) := by
    simp [Cursor.unread, Cursor.start]
  rw [hstart] at hrun
  exact ofTokens_of_run_callables hfuel hrun

/-- The tokens of a program farther back are those of the program farther back. -/
theorem ofTokens_shift {more : List Token} {u : Token} (hq : ofTokens (more ++ [u]) = .ok q) (n : Nat) :
    ofTokens ((more ++ [u]).map (Token.mapSpan (Span.shift n))) = .ok (q.mapSpans (Span.shift n)) := by
  obtain ⟨fuel, hfuel⟩ : ∃ fuel, fuel = (more ++ [u]).length + 1 := ⟨_, rfl⟩
  have hsize : (more ++ [u]).length < fuel := by omega
  obtain ⟨e, hcs⟩ := run_callables_of_ofTokens hq hsize
  have hle : q.callables.length ≤ (more ++ [u]).length :=
    length_le_of_callables (fun c hc => selfDelimiting_callable le_rfl hc) hsize hcs
  have hrun := natural_callables (natural_callable (Span.coherent_shift n) fuel) fuel
    (Cursor.start (more ++ [u]))
  rw [hcs] at hrun
  -- the place before the first token, which is nowhere, is not looked at
  obtain ⟨e', hrun⟩ := run_callables_of_length run_callable_last hrun
    (show (q.callables.map (Callable.mapSpans (Span.shift n))).length < fuel by
      rw [List.length_map]
      omega) .nowhere
  have hstart : { (Cursor.start (more ++ [u])).mapSpans (Span.shift n) with last := .nowhere } =
      Cursor.start ((more ++ [u]).map (Token.mapSpan (Span.shift n))) := by
    simp [Cursor.start, Cursor.mapSpans, Token.mapSpan, Span.shift, Span.point]
  rw [hstart] at hrun
  exact ofTokens_of_run_callables (by rw [hfuel, List.length_map]) hrun

end Program

end Freshen
