import Freshen.Layout.Buffer
import Freshen.Text.Quoted
import Freshen.Token

/-!
# Laid-out tokens

Printed source text is a list of pieces: tokens, and the blanks and line ends between them.

- `TokenKind.spelling`: how a token is written.
- `Piece.render`: the text of a list of pieces.
- `Piece.tokens`: the tokens in it, which is all that layout must not change.
-/

namespace Freshen

/-- How a token is written in source text. -/
def TokenKind.spelling : TokenKind → String
  | int value => toString value.toInt
  | str value => Quoted.encode value
  | ident name => name
  | keyword k => k.text
  | mark m => m.text
  | eof => ""

/-- A part of printed source text. -/
inductive Piece where
  | token (kind : TokenKind)
  | space
  | newline
  /-- The blanks at the start of a line. -/
  | indent (level : Nat)

namespace Piece

/-- A reserved word. -/
abbrev word (k : Keyword) : Piece := token (.keyword k)

/-- Punctuation or an operator. -/
abbrev sign (m : Mark) : Piece := token (.mark m)

/-- A name. -/
abbrev ident (n : Name) : Piece := token (.ident n)

/-- Adds a piece to a text. -/
def writeTo (b : TextBuffer) : Piece → TextBuffer
  | token kind => b.write kind.spelling
  | space => b.space
  | newline => b.newline
  | indent level => b.indent level

/-- The text of a list of pieces. -/
def render (pieces : List Piece) : String := (pieces.foldl writeTo TextBuffer.empty).text

/-- The tokens in a list of pieces. -/
def tokens (pieces : List Piece) : List TokenKind :=
  pieces.filterMap fun
    | token kind => some kind
    | _ => none

/-- Several items with a comma and a blank between them. -/
def commaSeparated : List (List Piece) → List Piece
  | [] => []
  | [item] => item
  | item :: items => item ++ [sign .comma, space] ++ commaSeparated items

/-- Something between parentheses, if `needed`. -/
def parenthesized (needed : Bool) (inside : List Piece) : List Piece :=
  if needed then [sign .lparen] ++ inside ++ [sign .rparen] else inside

end Piece

end Freshen
