import Freshen.Span
import Freshen.Text.Dump
import Freshen.Tree.Type

/-!
# Tokens

- `Keyword`, `Mark`: the tokens with a fixed spelling; words on the one hand, punctuation and
  operators on the other.
- `TokenKind`: a literal, an identifier, a fixed token or the end of the text.
- `Token`: a token kind with its place in the source text.
- `Keyword.text`, `Mark.text`: the fixed spellings, as they are printed.
- `TokenKind.fixedText`, `TokenKind.description`: the spelling, and the wording in messages.
-/

namespace Freshen

/-- Reserved words. -/
inductive Keyword where
  | fn | let_ | mut_ | set | return_
  | if_ | elif | else_
  | while_ | for_ | in_
  | repeat_ | until_ | fixup
  | true_ | false_
  | and | or | not
deriving DecidableEq

/-- Punctuation and operators. -/
inductive Mark where
  | lparen | rparen | lbrace | rbrace | lbracket | rbracket
  | doubleColon | colon | comma | semicolon | underscore
  | eqEq | eq | notEq
  | ltEq | lt | gtEq | gt
  | plus | minus | star | slash | percent
deriving DecidableEq

namespace Keyword

/-- The spelling in source text. -/
def text : Keyword → String
  | fn => "fn"
  | let_ => "let"
  | mut_ => "mut"
  | set => "set"
  | return_ => "return"
  | if_ => "if"
  | elif => "elif"
  | else_ => "else"
  | while_ => "while"
  | for_ => "for"
  | in_ => "in"
  | repeat_ => "repeat"
  | until_ => "until"
  | fixup => "fixup"
  | true_ => "true"
  | false_ => "false"
  | and => "and"
  | or => "or"
  | not => "not"

/-- The name of the token kind in dumps. -/
def label : Keyword → String
  | fn => "Fn"
  | let_ => "Let"
  | mut_ => "Mut"
  | set => "Set"
  | return_ => "Return"
  | if_ => "If"
  | elif => "Elif"
  | else_ => "Else"
  | while_ => "While"
  | for_ => "For"
  | in_ => "In"
  | repeat_ => "Repeat"
  | until_ => "Until"
  | fixup => "Fixup"
  | true_ => "True"
  | false_ => "False"
  | and => "And"
  | or => "Or"
  | not => "Not"

end Keyword

namespace Mark

/-- The spelling in source text. -/
def text : Mark → String
  | lparen => "("
  | rparen => ")"
  | lbrace => "\x7b"
  | rbrace => "\x7d"
  | lbracket => "["
  | rbracket => "]"
  | doubleColon => "::"
  | colon => ":"
  | comma => ","
  | semicolon => ";"
  | underscore => "_"
  | eqEq => "=="
  | eq => "="
  | notEq => "!="
  | ltEq => "<="
  | lt => "<"
  | gtEq => ">="
  | gt => ">"
  | plus => "+"
  | minus => "-"
  | star => "*"
  | slash => "/"
  | percent => "%"

/-- The name of the token kind in dumps. -/
def label : Mark → String
  | lparen => "LParen"
  | rparen => "RParen"
  | lbrace => "LBrace"
  | rbrace => "RBrace"
  | lbracket => "LBracket"
  | rbracket => "RBracket"
  | doubleColon => "DoubleColon"
  | colon => "Colon"
  | comma => "Comma"
  | semicolon => "Semicolon"
  | underscore => "Underscore"
  | eqEq => "EqEq"
  | eq => "Eq"
  | notEq => "NotEq"
  | ltEq => "LtEq"
  | lt => "Lt"
  | gtEq => "GtEq"
  | gt => "Gt"
  | plus => "Plus"
  | minus => "Minus"
  | star => "Star"
  | slash => "Slash"
  | percent => "Percent"

end Mark

/-- A token without its place. -/
inductive TokenKind where
  /-- An integer literal. -/
  | int (value : Int64)
  /-- A string literal, given by what it denotes. -/
  | str (value : String)
  | ident (name : Name)
  | keyword (word : Keyword)
  | mark (mark : Mark)
  /-- The end of the text. -/
  | eof
deriving DecidableEq

namespace TokenKind

/-- The spelling of a token that has only one. -/
def fixedText : TokenKind → Option String
  | keyword k => some k.text
  | mark m => some m.text
  | int _ | str _ | ident _ | eof => none

/-- The wording in messages. -/
def description : TokenKind → String
  | int value => s!"integer `{value.toInt}`"
  | str _ => "string literal"
  | ident name => s!"identifier `{name}`"
  | keyword k => s!"`{k.text}`"
  | mark m => s!"`{m.text}`"
  | eof => "end of input"

/-- The token kind as a value to inspect. -/
def dump : TokenKind → Dump
  | int value => .apply "Int" [.atom (toString value.toInt)]
  | str value => .apply "Str" [.ofString value]
  | ident name => .apply "Ident" [.ofName name]
  | keyword k => .atom k.label
  | mark m => .atom m.label
  | eof => .atom "Eof"

end TokenKind

/-- A token and its place in the source text. -/
structure Token where
  kind : TokenKind
  span : Span
deriving DecidableEq

/-- The token as a value to inspect. -/
def Token.dump (t : Token) : String := t.kind.dump.compact ++ " @ " ++ t.span.text

end Freshen
