import Freshen.Grammar.Error

/-!
# Parsers over tokens

A parser reads tokens from a cursor, without ever going back.

- `Cursor`: the tokens that are left, and the place of the token read last.
- `Parser`: a computation that moves the cursor or stops.
- `Parser.sepList`: items between commas.

Rules that repeat or nest take a number as fuel.  A rule never needs more fuel than there are
tokens left plus one, because it reads a token before it repeats or nests, so `Parser.onTokens`
starts with that much.
-/

namespace Freshen

/-- A position in a token list.  At an end-of-text token the cursor does not move on, wherever in
the list that token stands. -/
structure Cursor where
  /-- The tokens that are left. -/
  rest : List Token
  /-- Where the last token that was read stands. -/
  last : Span
  /-- What is reported as the end of the text once no token is left. -/
  finish : Span

namespace Cursor

/-- The start of a token list. -/
def start (tokens : List Token) : Cursor where
  rest := tokens
  last := Span.nowhere
  finish := match tokens.getLast? with
    | some t => Span.point t.span.stop
    | none => Span.nowhere

/-- The token at the cursor. -/
def current (c : Cursor) : Token := c.rest.headD ⟨.eof, c.finish⟩

/-- The kind of the token after the one at the cursor. -/
def nextKind (c : Cursor) : TokenKind := (c.rest.tail.headD ⟨.eof, c.finish⟩).kind

/-- The cursor after the token that it stands at. -/
def next (c : Cursor) : Cursor :=
  match c.rest with
  | [] => c
  | t :: ts => if t.kind = .eof then c else { c with rest := ts, last := t.span }

end Cursor

/-- Why a parser stops. -/
inductive Stop where
  /-- The grammar asks for something else than the token `found`. -/
  | unexpected (expected : Expected) (found : Token)
  | outOfFuel

/-- A computation that reads tokens. -/
abbrev Parser := StateT Cursor (Except Stop)

namespace Parser

variable {α : Type}

/-- The token at the cursor. -/
def current : Parser Token := return (← get).current

/-- The kind of the token at the cursor. -/
def peek : Parser TokenKind := return (← current).kind

/-- The kind of the token after the one at the cursor. -/
def peekNext : Parser TokenKind := return (← get).nextKind

/-- Where the last token that was read stands. -/
def lastSpan : Parser Span := return (← get).last

/-- Reads one token and says where it stands. -/
def advance : Parser Span := do
  let t ← current
  modify Cursor.next
  return t.span

/-- Stops at the token at the cursor. -/
def fail (expected : Expected) : Parser α := do
  throw (.unexpected expected (← current))

/-- Stops because a rule repeats or nests more often than there are tokens. -/
def outOfFuel : Parser α := throw .outOfFuel

/-- Whether a token of this kind is next. -/
def at? (kind : TokenKind) : Parser Bool := return (← peek) = kind

/-- Reads a token of this kind if it is next, and says whether it was. -/
def eat (kind : TokenKind) : Parser Bool := do
  if ← at? kind then
    let _ ← advance
    return true
  else
    return false

/-- Reads a token of this kind. -/
def expect (kind : TokenKind) : Parser Span := do
  if ← at? kind then advance else fail (.token kind)

/-- Reads an identifier. -/
def identifier : Parser (Name × Span) := do
  match ← peek with
  | .ident name => return (name, ← advance)
  | _ => fail .identifier

/-- Requires the end of the text. -/
def finished : Parser Unit := do
  if ← at? .eof then return () else fail .endOfInput

/-- Items between commas up to `close`, which is not read; a comma may follow the last item.  The
answer also says whether there was any comma. -/
def sepList (close : TokenKind) (item : Parser α) : Nat → Parser (List α × Bool)
  | 0 => outOfFuel
  | fuel + 1 => do
      if ← at? close then
        return ([], false)
      else
        let x ← item
        if ← eat (.mark .comma) then
          let (xs, _) ← sepList close item fuel
          return (x :: xs, true)
        else
          return ([x], false)

/-- What the rule `p` makes of a whole token list. -/
def onTokens (p : Nat → Parser α) (tokens : List Token) : Except ParseError α :=
  let start := Cursor.start tokens
  match StateT.run (p (tokens.length + 1)) start with
  | .ok (x, _) => .ok x
  | .error (.unexpected expected found) => .error (.unexpected expected found.kind found.span)
  | .error .outOfFuel => .error (.unexpected .endOfInput start.current.kind start.current.span)

/-- What the rule `p` makes of a source text. -/
def onText (p : Nat → Parser α) (source : String) : Except ParseError α :=
  match tokenize source with
  | .ok tokens => onTokens p tokens
  | .error e => .error (.lexical e)

end Parser

end Freshen
