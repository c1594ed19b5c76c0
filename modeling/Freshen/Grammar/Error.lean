import Freshen.Token.Lexer

/-!
# Why a text is not accepted

- `LexicalError.message`: the wording for text that has no tokens.
- `ParseError`: the first reason why a text is no program, callable or expression.  Reading tokens
  comes first, so a lexical error anywhere wins over a grammatical one.
-/

namespace Freshen

namespace LexicalError

/-- The wording of the error. -/
def message : LexicalError → String
  | invalid text _ => s!"unrecognized input `{text}`"
  | overflow text _ => s!"integer literal `{text}` does not fit in 64 bits"

/-- A short remark on the offending text. -/
def label : LexicalError → String
  | invalid _ _ => "not valid here"
  | overflow _ _ => "too large"

/-- The offending text. -/
def span : LexicalError → Span
  | invalid _ s => s
  | overflow _ s => s

end LexicalError

/-- What the grammar asks for at a place where something else stands. -/
inductive Expected where
  /-- This token and no other. -/
  | token (kind : TokenKind)
  | identifier
  | expression
  | pattern
  | parameter
  | type
  /-- The continuation of a path after `::`. -/
  | segment
  | endOfInput
deriving DecidableEq

/-- The wording in messages. -/
def Expected.text : Expected → String
  | token kind => kind.description
  | identifier => "identifier"
  | expression => "expression"
  | pattern => "pattern"
  | parameter => "parameter"
  | type => "type"
  | segment => "identifier or `<`"
  | endOfInput => "end of input"

/-- The first reason why a text is not accepted. -/
inductive ParseError where
  | lexical (error : LexicalError)
  | unexpected (expected : Expected) (found : TokenKind) (span : Span)
deriving DecidableEq

namespace ParseError

/-- The wording of the error. -/
def message : ParseError → String
  | lexical e => e.message
  | unexpected expected found _ => s!"expected {expected.text}, found {found.description}"

/-- A short remark on the offending text. -/
def label : ParseError → String
  | lexical e => e.label
  | unexpected expected _ _ => s!"expected {expected.text}"

/-- The offending text. -/
def span : ParseError → Span
  | lexical e => e.span
  | unexpected _ _ s => s

end ParseError

end Freshen
