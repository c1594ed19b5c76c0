import Mathlib
import Freshen.Grammar.Parser
import Freshen.Proofs.Tree.Spans

/-!
# Parsers under a change of spans

A parser never looks at where a token stands: changing the spans of the tokens by a function changes
the spans of what it answers, or of the token that it stops at, and nothing else.

- `Cursor.mapSpans`, `Stop.mapSpans`: a cursor and a reason to stop with changed spans.
- `Parser.Natural`: one parser does on changed tokens what another one does on the tokens.

**Key results.** One rule for each step that a parser is made of, and `Natural.sepList` for lists of
items.
-/

namespace Freshen

/-- The cursor with its spans changed. -/
def Cursor.mapSpans (f : Span → Span) (c : Cursor) : Cursor :=
  ⟨c.rest.map (Token.mapSpan f), f c.last, f c.finish⟩

/-- The reason to stop with its span changed. -/
def Stop.mapSpans (f : Span → Span) : Stop → Stop
  | .unexpected expected found => .unexpected expected (found.mapSpan f)
  | .outOfFuel => .outOfFuel

namespace Cursor

variable (f : Span → Span) (c : Cursor)

/-- The next token of a changed cursor is the next token, changed. -/
theorem current_mapSpans : (c.mapSpans f).current = c.current.mapSpan f := by
  obtain ⟨_ | ⟨t, ts⟩, last, finish⟩ := c <;> rfl

/-- A change of spans leaves the kind of the next token. -/
theorem nextKind_mapSpans : (c.mapSpans f).nextKind = c.nextKind := by
  obtain ⟨_ | ⟨t, _ | ⟨u, ts⟩⟩, last, finish⟩ := c <;> rfl

/-- To step and to change spans commute. -/
theorem next_mapSpans : (c.mapSpans f).next = c.next.mapSpans f := by
  obtain ⟨_ | ⟨t, ts⟩, last, finish⟩ := c
  · rfl
  · by_cases ht : t.kind = .eof <;> simp [mapSpans, next, Token.mapSpan, ht]

end Cursor

namespace Parser

variable {f : Span → Span} {α α' β β' : Type}

/-- On tokens whose spans are changed by `f`, `q` does what `p` does on the tokens: it reads as many
of them, and answers with `g` of the answer or stops for the same reason. -/
def Natural (f : Span → Span) (p : Parser α) (g : α → β) (q : Parser β) : Prop :=
  ∀ c, q.run (c.mapSpans f) =
    match p.run c with
    | .ok (a, c') => .ok (g a, c'.mapSpans f)
    | .error stop => .error (stop.mapSpans f)

namespace Natural

/-- A parser that only answers does so on changed spans too. -/
theorem pure {g : α → β} {a : α} {b : β} (h : b = g a) :
    Natural f (pure a : Parser α) g (Pure.pure b) := by
  intro c
  rw [h]
  rfl

/-- Parsers one after the other. -/
theorem bind {p : Parser α} {q : Parser α'} {g : α → α'} {k : α → Parser β} {l : α' → Parser β'}
    {h : β → β'} (hp : Natural f p g q) (hk : ∀ a, Natural f (k a) h (l (g a))) :
    Natural f (p >>= k) h (q >>= l) := by
  intro c
  have hrun := hp c
  rw [StateT.run_bind, StateT.run_bind, hrun]
  cases hc : p.run c with
  | ok result => exact hk result.1 result.2
  | error stop => rfl

/-- Fuel runs out whatever the spans are. -/
theorem outOfFuel (g : α → β) : Natural f outOfFuel g outOfFuel := fun _ => rfl

/-- The next token is changed with the cursor. -/
theorem current : Natural f current (Token.mapSpan f) current := fun c =>
  congrArg (fun t => Except.ok (t, c.mapSpans f)) (c.current_mapSpans f)

/-- The kind of the next token does not depend on spans. -/
theorem peek : Natural f peek id peek := current.bind fun _ => pure rfl

/-- The kind of the token after the next does not depend on spans. -/
theorem peekNext : Natural f peekNext id peekNext := fun c =>
  congrArg (fun k => Except.ok (k, c.mapSpans f)) (c.nextKind_mapSpans f)

/-- The span that was read last is changed with the cursor. -/
theorem lastSpan : Natural f lastSpan f lastSpan := fun _ => rfl

/-- One step reads the token whose span was changed. -/
theorem advance : Natural f advance f advance :=
  current.bind fun _ =>
    bind (g := id) (fun c => congrArg (fun c' => Except.ok ((), c')) (c.next_mapSpans f))
      fun _ => pure rfl

/-- A failure has the span of the token that was found, changed. -/
theorem fail (expected : Expected) (g : α → β) : Natural f (fail expected) g (fail expected) :=
  current.bind fun _ _ => rfl

/-- A test of the next token does not depend on spans. -/
theorem at? (kind : TokenKind) : Natural f (at? kind) id (at? kind) := peek.bind fun _ => pure rfl

/-- Whether a token is taken does not depend on spans. -/
theorem eat (kind : TokenKind) : Natural f (eat kind) id (eat kind) :=
  (at? kind).bind fun
    | true => advance.bind fun _ => pure rfl
    | false => pure rfl

/-- The span of an expected token is changed with the cursor. -/
theorem expect (kind : TokenKind) : Natural f (expect kind) f (expect kind) :=
  (at? kind).bind fun
    | true => advance
    | false => fail (.token kind) f

/-- The name of an identifier does not depend on spans; its span is changed. -/
theorem identifier : Natural f identifier (Prod.map id f) identifier :=
  peek.bind fun
    | .ident _ => advance.bind fun _ => pure rfl
    | .int _ | .str _ | .keyword _ | .mark _ | .eof => fail .identifier _

/-- The end of the text is found whatever the spans are. -/
theorem finished : Natural f finished id finished :=
  (at? .eof).bind fun
    | true => pure rfl
    | false => fail .endOfInput id

/-- A list does on changed spans what its items do, with the same commas. -/
theorem sepList {item : Parser α} {item' : Parser β} {g : α → β} (close : TokenKind)
    (h : Natural f item g item') :
    ∀ fuel, Natural f (sepList close item fuel) (Prod.map (List.map g) id)
      (sepList close item' fuel)
  | 0 => outOfFuel _
  | fuel + 1 =>
      (at? close).bind fun
        | true => pure rfl
        | false => h.bind fun _ => (eat (.mark .comma)).bind fun
            | true => (sepList close h fuel).bind fun _ => pure rfl
            | false => pure rfl

end Natural

end Parser

end Freshen
