import Freshen.Text.Decimal
import Freshen.Text.Quoted
import Freshen.Token

/-!
# Reading tokens

Source text is cut into lexemes from left to right, each as long as possible.  Blanks and comments
are dropped; the token list ends with one end-of-text token.

- `Keyword.ofWord?`, `Mark.ofPair?`, `Mark.ofChar?`: what the reserved words and the marks are read from.
- `Lexeme.scan`: the lexeme at the start of a text and its length.
- `tokenize`: all tokens of a text, or the first place where no token can be read.

Letters and digits of words and numbers are ASCII.  Comments run from `//` to the end of the line.
-/

namespace Freshen

/-- Why a text has no token list. -/
inductive LexicalError where
  /-- No lexeme begins like this. -/
  | invalid (text : String) (span : Span)
  /-- An integer literal above `2 ^ 63 - 1`. -/
  | overflow (text : String) (span : Span)
deriving DecidableEq

/-- What stands at one position of a text. -/
inductive Lexeme where
  /-- Blanks or a comment. -/
  | skip
  | token (kind : TokenKind)
  | invalid
  | overflow
deriving DecidableEq

/-- Space, tab, carriage return or line feed. -/
def isBlank (c : Char) : Bool := c == ' ' || c == '\t' || c == '\r' || c == '\n'

/-- An ASCII letter or an underscore. -/
def isWordStart (c : Char) : Bool := c.isAlpha || c == '_'

/-- An ASCII letter, an ASCII digit or an underscore. -/
def isWordPart (c : Char) : Bool := c.isAlphanum || c == '_'

/-- A digit of an integer literal, or an underscore between its digits. -/
def isDigitPart (c : Char) : Bool := c.isDigit || c == '_'

/-- The largest value of an integer literal. -/
def maxInt : Nat := UInt64.size / 2 - 1

/-- The reserved word that a whole word is. -/
def Keyword.ofWord? : String → Option Keyword
  | "fn" => some fn
  | "let" => some let_
  | "mut" => some mut_
  | "set" => some set
  | "return" => some return_
  | "if" => some if_
  | "elif" => some elif
  | "else" => some else_
  | "while" => some while_
  | "for" => some for_
  | "in" => some in_
  | "repeat" => some repeat_
  | "until" => some until_
  | "fixup" => some fixup
  | "true" => some true_
  | "false" => some false_
  | "and" => some and
  | "or" => some or
  | "not" => some not
  | _ => none

/-- The mark written with two characters. -/
def Mark.ofPair? : Char → Char → Option Mark
  | ':', ':' => some doubleColon
  | '=', '=' => some eqEq
  | '!', '=' => some notEq
  | '<', '=' => some ltEq
  | '>', '=' => some gtEq
  | _, _ => none

/-- The mark written with one character; the underscore is read as a word. -/
def Mark.ofChar? : Char → Option Mark
  | '(' => some lparen
  | ')' => some rparen
  | '\x7b' => some lbrace
  | '\x7d' => some rbrace
  | '[' => some lbracket
  | ']' => some rbracket
  | ':' => some colon
  | ',' => some comma
  | ';' => some semicolon
  | '=' => some eq
  | '<' => some lt
  | '>' => some gt
  | '+' => some plus
  | '-' => some minus
  | '*' => some star
  | '/' => some slash
  | '%' => some percent
  | _ => none

/-- The token that a whole word stands for. -/
def TokenKind.ofWord (word : String) : TokenKind :=
  if word = "_" then mark .underscore
  else match Keyword.ofWord? word with
    | some k => keyword k
    | none => ident word

namespace Lexeme

/-- A word that starts with `c`. -/
def scanWord (c : Char) (cs : List Char) : Lexeme × Nat :=
  let rest := cs.takeWhile isWordPart
  (token (.ofWord (String.ofList (c :: rest))), rest.length)

/-- An integer literal that starts with the digit `c`. -/
def scanInt (c : Char) (cs : List Char) : Lexeme × Nat :=
  let rest := cs.takeWhile isDigitPart
  let value := Decimal.value ((c :: rest).filter Char.isDigit)
  (if value ≤ maxInt then token (.int (Int64.ofNat value)) else overflow, rest.length)

/-- A string literal whose opening quote stands before `cs`. -/
def scanString (cs : List Char) : Lexeme × Nat :=
  let inside := Quoted.runLength cs
  if (cs.drop inside).head? = some '"' then
    (token (.str (String.ofList (Quoted.decode (cs.take inside)))), inside + 1)
  else (invalid, inside)

/-- A mark, two characters before one. -/
def scanMark (c : Char) (cs : List Char) : Lexeme × Nat :=
  match cs.head?.bind (Mark.ofPair? c) with
  | some m => (token (.mark m), 1)
  | none =>
      match Mark.ofChar? c with
      | some m => (token (.mark m), 0)
      | none => (invalid, 0)

/-- The lexeme at the start of `c :: cs`, and how many characters of `cs` belong to it. -/
def scan (c : Char) (cs : List Char) : Lexeme × Nat :=
  if isBlank c then (skip, (cs.takeWhile isBlank).length)
  else if c = '/' ∧ cs.head? = some '/' then (skip, (cs.takeWhile (· ≠ '\n')).length)
  else if isWordStart c then scanWord c cs
  else if c.isDigit then scanInt c cs
  else if c = '"' then scanString cs
  else scanMark c cs

end Lexeme

/-- Number of bytes that the characters take up in UTF-8. -/
def byteLength (cs : List Char) : Nat := cs.foldr (fun c n => c.utf8Size + n) 0

/-- The tokens of a text that starts at byte `offset`.  Its first `pending` characters belong to a
lexeme that was read before. -/
def tokensFrom : (pending offset : Nat) → List Char → Except LexicalError (List Token)
  | _, offset, [] => .ok [⟨.eof, Span.ofRange offset offset⟩]
  | pending + 1, offset, c :: cs => tokensFrom pending (offset + c.utf8Size) cs
  | 0, offset, c :: cs =>
      let (lexeme, more) := Lexeme.scan c cs
      let lexemeText := c :: cs.take more
      let span := Span.ofRange offset (offset + byteLength lexemeText)
      match lexeme with
      | .skip => tokensFrom more (offset + c.utf8Size) cs
      | .token kind => (tokensFrom more (offset + c.utf8Size) cs).map (⟨kind, span⟩ :: ·)
      | .invalid => .error (.invalid (String.ofList lexemeText) span)
      | .overflow => .error (.overflow (String.ofList lexemeText) span)

/-- The tokens of a source text, the last one marking its end. -/
def tokenize (source : String) : Except LexicalError (List Token) :=
  tokensFrom 0 0 source.toList

end Freshen
