import Mathlib
import Freshen.Proofs.Grammar.Loops
import Freshen.Proofs.Grammar.Stopping

/-!
# The parser makes progress

On any tokens, also such that no text has, the parser comes to an end. An end-of-text token may stand anywhere
among them, and reading never goes past one: what keeps the parser from spinning there is that no loop goes on
and no rule answers before a token was read.

- `Parser.Halts`: how a parser ends at a cursor, with the number of tokens that it reads for an answer.
- `Parser.LoopProgress`: each iteration of a loop reads a token, leaves the loop or stops, so the loop ends.
- `Grammar.Progress`: the same of all rules and loops of the parser.

**Key results.** `Parser.Halts.iterate`: a loop ends if each of its iterations makes progress;
`Grammar.progress`: the parser makes progress wherever it stands.
-/

namespace Freshen

/-- Going on reads the next token, or it stays at a token that ends the text. -/
theorem Cursor.exists_reaches_next (c : Cursor) : ∃ read, c.Reaches read c.next := by
  by_cases hc : c.current.kind = .eof
  · have hnext : c.next = c := by
      obtain ⟨_ | ⟨t, rest⟩, last, finish⟩ := c
      · rfl
      · exact if_pos hc
    rw [hnext]
    exact ⟨[], .refl c⟩
  · exact ⟨[c.current], reaches_next hc⟩

namespace Parser

open Cursor

variable {σ α β : Type} {n : Nat} {c : Cursor} {k : TokenKind}

/-! ### How a parser ends -/

/-- The parser ends at the cursor `c`. It answers after it read at least as many tokens as `least` asks for its
answer, or it stops at a token after it read some. All of these tokens were left at `c`, and fuel is not what it
lacks. -/
inductive Halts (least : α → Nat) (p : Parser α) (c : Cursor) : Prop where
  | answers {read : List Token} {c' : Cursor} (a : α) (hreach : c.Reaches read c')
      (hleast : least a ≤ read.length) (hrun : p.run c = .ok (a, c')) : Halts least p c
  | stops {read : List Token} {c' : Cursor} (expected : Expected) (hreach : c.Reaches read c')
      (hrun : p.run c = .error (.unexpected expected c'.current)) : Halts least p c

/-- The parser ends at the cursor. -/
abbrev Returns (p : Parser α) (c : Cursor) : Prop := Halts (fun _ => 0) p c

/-- The parser ends at the cursor, and answers only after it read a token. -/
abbrev Advances (p : Parser α) (c : Cursor) : Prop := Halts (fun _ => 1) p c

/-- With the fuel `n` the rule ends at the cursor, and with more fuel it does the same. -/
def EndsWithin (n : Nat) (p : Nat → Parser α) (c : Cursor) : Prop :=
  Returns (p n) c ∧ ∀ m, (p (m + n)).run c = (p n).run c

/-- How many tokens an iteration has to read: one, if the loop goes on after it. -/
def Iteration.least : Iteration σ α → Nat
  | again _ => 1
  | leave _ => 0

namespace Halts

variable {least : α → Nat} {least' : β → Nat} {p : Parser α} {q q' : Parser β} {f : α → Parser β}

/-- A parser that reads enough tokens reads fewer than that, too. -/
theorem mono {few : α → Nat} (h : Halts least p c) (hle : ∀ a, few a ≤ least a) : Halts few p c := by
  cases h with
  | answers a hreach hleast hrun => exact .answers a hreach ((hle a).trans hleast) hrun
  | stops expected hreach hrun => exact .stops expected hreach hrun

/-- A parser that reads enough tokens comes to an end. -/
theorem returns (h : Halts least p c) : Returns p c := h.mono fun _ => Nat.zero_le _

/-- Whether a parser ends depends on what it does at the cursor only. -/
theorem congr {p' : Parser α} (h : Halts least p c) (hrun : p'.run c = p.run c) : Halts least p' c := by
  cases h with
  | answers a hreach hleast h => exact .answers a hreach hleast (hrun.trans h)
  | stops expected hreach h => exact .stops expected hreach (hrun.trans h)

/-- A parser that only answers ends, and reads nothing. -/
theorem pure {a : α} (h : least a = 0) : Halts least (Pure.pure a) c :=
  .answers a (.refl c) (h.trans_le (Nat.zero_le _)) rfl

/-- A parser that fails ends. -/
theorem fail (expected : Expected) : Halts least (Parser.fail expected) c := .stops expected (.refl c) rfl

/-- What is left after the first parser is less by the tokens that it reads. -/
theorem bind (h : Halts least p c) (hf : ∀ a c', c'.rest.length + least a ≤ c.rest.length →
    Halts (fun b => least' b - least a) (f a) c') : Halts least' (p >>= f) c := by
  cases h with
  | stops expected hreach hrun => exact .stops expected hreach (run_bind_of_error hrun f)
  | @answers read c₁ a hreach hleast hrun =>
      have hlength := hreach.length_eq
      cases hf a c₁ (by omega) with
      | stops expected hreach' hrun' =>
          exact .stops expected (hreach.trans hreach') ((run_bind_of_ok hrun f).trans hrun')
      | answers b hreach' hleast' hrun' =>
          refine .answers b (hreach.trans hreach') ?_ ((run_bind_of_ok hrun f).trans hrun')
          rw [List.length_append]
          omega

/-- The answer is only given another form. -/
theorem map {g : α → β} (h : Halts least p c) (hg : ∀ a, least' (g a) ≤ least a) :
    Halts least' (do return g (← p)) c :=
  h.bind fun a _ _ => pure (Nat.sub_eq_zero_of_le (hg a))

/-! ### Looking ahead and reading one token -/

/-- Looking at the kind of the next token reads nothing. -/
theorem peek {f : TokenKind → Parser β} (h : ∀ k, c.current.kind = k → Halts least' (f k) c) :
    Halts least' (Parser.peek >>= f) c :=
  (h _ rfl).congr rfl

/-- Looking at the kind of the token after the next reads nothing. -/
theorem peekNext {f : TokenKind → Parser β} (h : ∀ k, Halts least' (f k) c) :
    Halts least' (Parser.peekNext >>= f) c :=
  (h c.nextKind).congr rfl

/-- A choice by the kind of the next token ends if both its parts do. -/
theorem ifAt (htrue : c.current.kind = k → Halts least' q c) (hfalse : Halts least' q' c) :
    Halts least' (do if ← Parser.at? k then q else q') c := by
  have hrun : (do if ← Parser.at? k then q else q' : Parser β).run c =
      (if decide (c.current.kind = k) then q else q').run c := rfl
  by_cases hk : c.current.kind = k
  · rw [decide_eq_true hk] at hrun
    exact (htrue hk).congr hrun
  · rw [decide_eq_false hk] at hrun
    exact hfalse.congr hrun

/-- One step ends, also at the end of the text. -/
theorem returns_advance (c : Cursor) : Returns advance c := by
  obtain ⟨read, hreach⟩ := exists_reaches_next c
  exact .answers _ hreach (Nat.zero_le _) rfl

/-- Before the end of the text, one step reads a token. -/
theorem advances_advance (hc : c.current.kind ≠ .eof) : Advances advance c :=
  .answers _ (reaches_next hc) le_rfl rfl

/-- An expected token is read, or the parser stops at another. -/
theorem advances_expect [hk : k.Proper] : Advances (expect k) c := by
  refine ifAt (fun hc => advances_advance ?_) (fail _)
  rw [hc]
  exact hk.ne_eof

/-- An identifier is read, or the parser stops at another token. -/
theorem advances_identifier : Advances identifier c := by
  apply peek
  intro k hc
  cases k with
  | ident name => exact (advances_advance (by rw [hc]; exact TokenKind.Proper.ne_eof)).map fun _ => le_rfl
  | _ => exact fail _

/-- If a token was taken, what comes after it may read one token less. -/
theorem ifEat [hk : k.Proper]
    (htrue : ∀ c' : Cursor, c'.rest.length + 1 ≤ c.rest.length → Halts (fun b => least' b - 1) q c')
    (hfalse : Halts least' q' c) : Halts least' (do if ← Parser.eat k then q else q') c := by
  have heat : (do if ← Parser.eat k then q else q') =
      (do if ← Parser.at? k then Parser.advance >>= fun _ => q else q') := by
    rw [Parser.eat, bind_assoc]
    congr 1
    funext b
    cases b <;> rfl
  rw [heat]
  refine ifAt (fun hc => (advances_advance ?_).bind fun _ c' hc' => htrue c' hc') hfalse
  rw [hc]
  exact hk.ne_eof

/-! ### Loops -/

/-- If each iteration makes progress, the loop ends before it has gone on more often than there are tokens. -/
theorem iterate {iteration : Nat → σ → Parser (Iteration σ α)}
    (h : ∀ (c : Cursor) fuel state, c.rest.length < n → c.rest.length ≤ fuel →
      Halts Iteration.least (iteration fuel state) c) (state : σ) (fuel : Nat) (hn : c.rest.length < n)
    (hfuel : c.rest.length < fuel) : Returns (Parser.iterate iteration fuel state) c := by
  -- fuel lasts, because a token is read for each unit of it
  induction fuel generalizing c state with
  | zero => exact absurd hfuel (Nat.not_lt_zero _)
  | succ fuel ih =>
      rw [Parser.iterate]
      refine (h c fuel state hn (Nat.le_of_lt_succ hfuel)).bind fun result c' hc' => ?_
      cases result with
      | again state =>
          rw [Iteration.least] at hc'
          exact (ih state (by omega) (by omega)).returns
      | leave answer => exact pure rfl

end Halts

/-- The loop repeats `iteration` from the state `start` on. Where fewer than `n` tokens are left, and not more than
there is fuel for, it makes progress. -/
structure LoopProgress (n : Nat) (iteration : Nat → σ → Parser (Iteration σ α)) (start : σ)
    (loop : Nat → Parser α) : Prop where
  eq_iterate : ∀ fuel, loop fuel = iterate iteration fuel start
  /-- An iteration reads a token before the loop goes on, or it leaves the loop, or it stops. -/
  advances : ∀ (c : Cursor) fuel state, c.rest.length < n → c.rest.length ≤ fuel →
    Halts Iteration.least (iteration fuel state) c
  /-- So the loop ends. -/
  returns : ∀ (c : Cursor) fuel, c.rest.length < n → c.rest.length < fuel → Returns (loop fuel) c

/-- A loop each of whose iterations reads a token or leaves makes progress. -/
theorem LoopProgress.of_advances {iteration : Nat → σ → Parser (Iteration σ α)} {start : σ}
    {loop : Nat → Parser α} (heq : ∀ fuel, loop fuel = iterate iteration fuel start)
    (h : ∀ (c : Cursor) fuel state, c.rest.length < n → c.rest.length ≤ fuel →
      Halts Iteration.least (iteration fuel state) c) : LoopProgress n iteration start loop where
  eq_iterate := heq
  advances := h
  returns c fuel hn hfuel := by
    rw [heq]
    exact .iterate h start fuel hn hfuel

/-- A list makes progress if its items come to an end. -/
theorem loopProgress_list (close : TokenKind) {item : Parser α}
    (hitem : ∀ c : Cursor, c.rest.length < n → Returns item c) :
    LoopProgress n (fun _ => listIteration close item) ([], false) (sepList close item) := by
  refine .of_advances (sepList_eq_iterate close item) fun c fuel state hn _ => ?_
  obtain ⟨xs, comma⟩ := state
  exact .ifAt (fun _ => .pure rfl) ((hitem c hn).bind fun x c' _ => .ifEat (fun _ _ => .pure rfl) (.pure rfl))

/-! ### Viable rules -/

section Viable

variable {R : List TokenKind → α → Prop} {q : Nat → Parser α}

/-- Where fewer tokens are left than it has fuel a viable rule ends, and the tokens that it reads are in its
relation. -/
theorem Viable.halts (h : Viable n Anywhere q R) {p : Parser α} (hq : q 0 = p) (hsound : Sound p R)
    {least : α → Nat} (hleast : ∀ ks a, R ks a → least a ≤ ks.length) (hc : c.rest.length < n) :
    Halts least p c := by
  subst hq
  cases h.ends c trivial hc with
  | stops expected hreach heof hR hagree => exact .stops expected hreach (run_of_reaches hreach (hagree 0))
  | answers a hreach hagree =>
      have hrun := run_of_reaches hreach (hagree 0)
      obtain ⟨ks, hks, -, hR, -⟩ := hsound c a _ List.nil_prefix hrun
      rw [hreach.kinds_eq] at hks
      have hlength := hleast ks a hR
      rw [← List.append_cancel_right hks, List.length_map] at hlength
      exact .answers a hreach hlength hrun

/-- Fuel does not matter there. -/
theorem Viable.run_eq (h : Viable n Anywhere q R) (hc : c.rest.length < n) (m m' : Nat) :
    (q m).run c = (q m').run c := by
  cases h.ends c trivial hc with
  | stops expected hreach heof hR hagree =>
      exact (run_of_reaches hreach (hagree m)).trans (run_of_reaches hreach (hagree m')).symm
  | answers a hreach hagree =>
      exact (run_of_reaches hreach (hagree m)).trans (run_of_reaches hreach (hagree m')).symm

/-- A rule that stops only where it must ends with the fuel for the tokens that are left, and more fuel does
not matter. -/
theorem Viable.endsWithin {p : Nat → Parser α} (h : Viable n Anywhere (fun m => p (m + n)) R)
    (hsound : Sound (p n) R) (hc : c.rest.length < n) : EndsWithin n p c := by
  have hzero : p (0 + n) = p n := congrArg p (Nat.zero_add n)
  refine ⟨h.halts hzero hsound (fun _ _ _ => Nat.zero_le _) hc, fun m => ?_⟩
  rw [← hzero]
  exact h.run_eq hc m 0

end Viable

end Parser

namespace Grammar

open Freshen.Parser

variable {n loop : Nat} {c : Cursor}

/-! ### Rules -/

/-- A type is read from at least one token. -/
theorem advances_type (hc : c.rest.length < n) : Advances (type n) c :=
  (viable_type le_rfl).halts (congrArg type (Nat.zero_add n)) (sound_type n)
    (fun _ _ ht => ht.item.1.length_pos) hc

/-- A pattern is read from at least one token. -/
theorem advances_pattern (hc : c.rest.length < n) : Advances (pattern n) c :=
  (viable_pattern le_rfl).halts (congrArg pattern (Nat.zero_add n)) (sound_pattern n)
    (fun _ _ hp => hp.item.1.length_pos) hc

/-- A parameter is read from at least one token. -/
theorem advances_parameter (hc : c.rest.length < n) : Advances (parameter n) c :=
  (viable_parameter le_rfl).halts (congrArg parameter (Nat.zero_add n)) (sound_parameter n)
    (fun _ _ hp => hp.item.1.length_pos) hc

/-- An expression of a level is read from at least one token. -/
theorem advances_exprAt {level : Nat} (hlevel : level ≤ Precedence.unary) (hc : c.rest.length < n) :
    Advances (exprAt n level) c :=
  (viable_exprAt hlevel le_rfl).halts (by rw [Nat.zero_add]) (sound_exprAt n hlevel)
    (fun _ _ he => he.climbs.opens.length_pos) hc

/-- An expression is read from at least one token. -/
theorem advances_expr (hc : c.rest.length < n) : Advances (expr n) c := advances_exprAt (by decide) hc

/-- A block is read from at least one token. -/
theorem advances_block (hc : c.rest.length < n) : Advances (block n) c := by
  refine (viable_block le_rfl).halts (congrArg block (Nat.zero_add n)) (sound_block n) ?_ hc
  rintro _ _ ⟨span, hts⟩
  exact Nat.succ_pos _

/-- A statement is read from at least one token. -/
theorem advances_stmt (hloop : n ≤ loop) (hc : c.rest.length < n) : Advances (stmt (block n) loop) c := by
  have hviable := viable_stmt (fun i => sound_block (i + n)) (viable_block le_rfl) hloop
  refine hviable.halts (by rw [Nat.zero_add, Nat.zero_add]) (sound_stmt (sound_block n) loop) ?_ hc
  intro ks t ht
  obtain ⟨k, ks', rfl, -⟩ := ht.starts
  exact Nat.succ_pos _

/-- A callable is read from at least one token. -/
theorem advances_callable (hc : c.rest.length < n) : Advances (callable n) c := by
  refine (viable_callable le_rfl).halts (congrArg callable (Nat.zero_add n)) (sound_callable n) ?_ hc
  rintro _ _ ⟨name, span, hparams, hbody⟩
  exact Nat.succ_pos _

/-! ### Loops -/

/-- The loop over the callables of a program makes progress. -/
theorem loopProgress_callables :
    LoopProgress n (fun _ => callablesIteration (callable n)) [] (callables (callable n)) := by
  refine .of_advances (callables_eq_iterate _) fun c fuel cs hn _ => ?_
  exact .ifAt (fun _ => .pure rfl) ((advances_callable hn).map fun _ => le_rfl)

/-- The loop over the statements of a block makes progress. -/
theorem loopProgress_stmts (hloop : n ≤ loop) :
    LoopProgress n (fun _ => stmtsIteration (stmt (block n) loop)) [] (stmts (stmt (block n) loop)) := by
  refine .of_advances (stmts_eq_iterate _) fun c fuel ts hn _ => .peek fun k _ => ?_
  let next : Parser (Iteration (List Stmt) (List Stmt)) := do return .again (ts ++ [← stmt (block n) loop])
  have hnext : Halts Iteration.least next c := (advances_stmt hloop hn).map fun _ => le_rfl
  cases k with
  | eof => exact .fail _
  | mark mark => cases mark with
    | rbrace => exact .pure rfl
    | _ => exact hnext
  | _ => exact hnext

/-- The loop over the branches of a choice makes progress. -/
theorem loopProgress_branches : LoopProgress n (branchesIteration (block n)) [] (branches (block n)) := by
  refine .of_advances (branches_eq_iterate _) fun c fuel bs hn hfuel => ?_
  refine (advances_expr (Nat.lt_succ_of_le hfuel)).returns.bind fun cond c₁ h₁ => ?_
  refine (advances_block (by omega)).returns.bind fun body c₂ _ => ?_
  exact .ifEat (fun _ _ => .pure rfl) (.pure rfl)

/-- The loop over the binary operators of a level makes progress. -/
theorem loopProgress_operators (least : Nat) (lhs : Expr) :
    LoopProgress n (fun _ => operatorsIteration (exprAt n) least) lhs
      fun fuel => operators (exprAt n) least fuel lhs := by
  refine .of_advances (fun fuel => operators_eq_iterate _ _ fuel lhs) fun c fuel lhs hn _ => ?_
  refine .peek fun k hk => ?_
  cases hop : binaryOp? k with
  | none => exact .pure rfl
  | some op =>
      dsimp only
      by_cases hlow : op.precedence < least
      · rw [if_pos hlow]
        exact .pure rfl
      · have hne : c.current.kind ≠ .eof := fun heof => by
          rw [← hk, heof] at hop
          cases hop
        rw [if_neg hlow]
        refine (Halts.advances_advance hne).bind fun _ c₁ h₁ => ?_
        exact (advances_exprAt op.precedence_lt_unary (by omega)).map fun _ => Nat.zero_le _

/-- The loop over calls and indexing makes progress. -/
theorem loopProgress_applications (base : Expr) :
    LoopProgress n (applicationsIteration (exprAt n 1)) base
      fun fuel => applications (exprAt n 1) fuel base := by
  have hlist := loopProgress_list (.mark .rparen) fun c (hc : c.rest.length < n) =>
    (advances_expr hc).returns
  refine .of_advances (fun fuel => applications_eq_iterate _ fuel base) fun c fuel base hn hfuel => ?_
  refine .ifEat (fun c₁ h₁ => ?_) (.ifEat (fun c₁ h₁ => ?_) (.pure rfl))
  · refine (hlist.returns c₁ (fuel + 1) (by omega) (by omega)).bind fun list c₂ _ => ?_
    exact Halts.advances_expect.map fun _ => Nat.zero_le _
  · refine (advances_expr (by omega)).returns.bind fun index c₂ _ => ?_
    exact Halts.advances_expect.map fun _ => Nat.zero_le _

/-- The loop over the segments of a path makes progress. -/
theorem loopProgress_segments : LoopProgress n segmentsIteration [] segments := by
  refine .of_advances segments_eq_iterate fun c fuel names _ hfuel => ?_
  refine .ifAt (fun hcolons => .peekNext fun k => ?_) (.pure rfl)
  -- in each case the `::` is read first, which is progress already
  have hadvance : Advances advance c :=
    Halts.advances_advance (by rw [hcolons]; exact TokenKind.Proper.ne_eof)
  cases k with
  | ident name =>
      refine hadvance.bind fun _ c₁ _ => ?_
      exact Halts.advances_identifier.map fun _ => Nat.zero_le _
  | mark mark => cases mark with
    | lt =>
        refine hadvance.bind fun _ c₁ h₁ => (Halts.returns_advance c₁).bind fun _ c₂ h₂ => ?_
        have hlist := loopProgress_list (.mark .gt) fun c (hc : c.rest.length < fuel) =>
          (advances_type hc).returns
        refine .map ?_ fun _ => Nat.zero_le 0
        refine (hlist.returns c₂ (fuel + 1) (by omega) (by omega)).bind fun list c₃ _ => ?_
        exact Halts.advances_expect.map fun _ => Nat.zero_le _
    | _ => exact hadvance.bind fun _ c₁ _ => .fail _
  | _ => exact hadvance.bind fun _ c₁ _ => .fail _

/-! ### The parser -/

/-- What the parser does where fewer than `n` tokens are left, with the fuel `n`. The tokens may be any. -/
structure Progress (n : Nat) : Prop where
  /-- Reading a program, a callable or an expression comes to an end on a whole token list. -/
  program_ends : ∀ tokens : List Token, tokens.length < n → EndsWithin n program (.start tokens)
  callable_ends : ∀ tokens : List Token, tokens.length < n → EndsWithin n onlyCallable (.start tokens)
  expr_ends : ∀ tokens : List Token, tokens.length < n → EndsWithin n onlyExpr (.start tokens)
  /-- No rule answers before it read a token. -/
  callable : ∀ c : Cursor, c.rest.length < n → Advances (callable n) c
  parameter : ∀ c : Cursor, c.rest.length < n → Advances (parameter n) c
  block : ∀ c : Cursor, c.rest.length < n → Advances (block n) c
  stmt : ∀ loop, n ≤ loop → ∀ c : Cursor, c.rest.length < n → Advances (stmt (Grammar.block n) loop) c
  expr : ∀ c : Cursor, c.rest.length < n → Advances (expr n) c
  pattern : ∀ c : Cursor, c.rest.length < n → Advances (pattern n) c
  type : ∀ c : Cursor, c.rest.length < n → Advances (type n) c
  /-- No loop goes on before it read a token, be it over the items of a list, -/
  types : ∀ close, LoopProgress n (fun _ => listIteration close (Grammar.type n)) ([], false)
    (sepList close (Grammar.type n))
  patterns : ∀ close, LoopProgress n (fun _ => listIteration close (Grammar.pattern n)) ([], false)
    (sepList close (Grammar.pattern n))
  parameters : ∀ close, LoopProgress n (fun _ => listIteration close (Grammar.parameter n)) ([], false)
    (sepList close (Grammar.parameter n))
  exprs : ∀ close, LoopProgress n (fun _ => listIteration close (Grammar.expr n)) ([], false)
    (sepList close (Grammar.expr n))
  /-- over the callables of a program, the statements of a block or the branches of a choice, -/
  callables : LoopProgress n (fun _ => callablesIteration (Grammar.callable n)) []
    (callables (Grammar.callable n))
  stmts : ∀ loop, n ≤ loop → LoopProgress n
    (fun _ => stmtsIteration (Grammar.stmt (Grammar.block n) loop)) []
    (stmts (Grammar.stmt (Grammar.block n) loop))
  branches : LoopProgress n (branchesIteration (Grammar.block n)) [] (branches (Grammar.block n))
  /-- or over the operators, the calls and the path in an expression. -/
  operators : ∀ least lhs, LoopProgress n (fun _ => operatorsIteration (exprAt n) least) lhs
    fun fuel => operators (exprAt n) least fuel lhs
  applications : ∀ base, LoopProgress n (applicationsIteration (exprAt n 1)) base
    fun fuel => applications (exprAt n 1) fuel base
  segments : LoopProgress n segmentsIteration [] segments
  /-- A cursor never leaves the tokens: it stands between those that were read and those that are left. -/
  within : ∀ (tokens read : List Token) (c : Cursor), (Cursor.start tokens).Reaches read c →
    read ++ c.rest = tokens ∧ ∃ more, (Cursor.start tokens).Reaches (read ++ more) c.next

/-- **The parser makes progress.** On any tokens it comes to an end, because neither its loops go on nor its
rules answer before a token was read, and the cursor stays among the tokens. -/
theorem progress (n : Nat) : Progress n where
  program_ends tokens hn := (viable_program le_rfl).endsWithin (sound_program n).untold hn
  callable_ends tokens hn :=
    (viable_only (fun i => sound_callable (i + n)) (viable_callable le_rfl)).endsWithin
      (sound_only (sound_callable n)).untold hn
  expr_ends tokens hn :=
    (viable_only (fun i => sound_expr (i + n)) (viable_expr le_rfl)).endsWithin
      (sound_only (sound_expr n)).untold hn
  callable _ := advances_callable
  parameter _ := advances_parameter
  block _ := advances_block
  stmt _ hloop _ := advances_stmt hloop
  expr _ := advances_expr
  pattern _ := advances_pattern
  type _ := advances_type
  types close := loopProgress_list close fun _ hc => (advances_type hc).returns
  patterns close := loopProgress_list close fun _ hc => (advances_pattern hc).returns
  parameters close := loopProgress_list close fun _ hc => (advances_parameter hc).returns
  exprs close := loopProgress_list close fun _ hc => (advances_expr hc).returns
  callables := loopProgress_callables
  stmts _ hloop := loopProgress_stmts hloop
  branches := loopProgress_branches
  operators := loopProgress_operators
  applications := loopProgress_applications
  segments := loopProgress_segments
  within tokens read c hreach := by
    constructor
    · have hrest := congrArg Cursor.rest hreach.eq_unread
      exact hrest.symm
    · obtain ⟨more, hmore⟩ := c.exists_reaches_next
      exact ⟨more, hreach.trans hmore⟩

end Grammar

end Freshen
