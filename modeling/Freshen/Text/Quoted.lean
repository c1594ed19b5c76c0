/-!
# Quoted strings

String literals of the source language stand between double quotes.  Inside, a backslash and the
character after it form one *item*; every other character except the quote is an item by itself.

- `Quoted.encode`: the literal that denotes a string; only what cannot stand for itself is escaped.
- `Quoted.decode`: what the inside of a literal denotes.  An escape without a meaning stays as it
  is written.
- `Quoted.runLength`: how far a literal reaches, in complete items.  A backslash before a line feed
  or at the end of the text is no item.
-/

namespace Freshen.Quoted

/-- How a character is written inside a literal. -/
def escape : Char → List Char
  | '"' => ['\\', '"']
  | '\\' => ['\\', '\\']
  | '\n' => ['\\', 'n']
  | '\r' => ['\\', 'r']
  | '\t' => ['\\', 't']
  | '\x00' => ['\\', '0']
  | c => [c]

/-- What a backslash followed by `c` denotes. -/
def escaped : Char → List Char
  | 'n' => ['\n']
  | 'r' => ['\r']
  | 't' => ['\t']
  | '\\' => ['\\']
  | '"' => ['"']
  | '0' => ['\x00']
  | c => ['\\', c]

/-- The inside of a literal read as the characters that it denotes. -/
def decode : List Char → List Char
  | [] => []
  | [c] => [c]
  | c :: d :: cs => if c = '\\' then escaped d ++ decode cs else c :: decode (d :: cs)

/-- The literal that denotes `text`. -/
def encode (text : String) : String :=
  String.ofList ('"' :: text.toList.flatMap escape ++ ['"'])

/-- The number of characters in the longest run of complete items at the start of a text. -/
def runLength : List Char → Nat
  | [] => 0
  | [c] => if c = '"' ∨ c = '\\' then 0 else 1
  | c :: d :: cs =>
      if c = '"' then 0
      else if c = '\\' then if d = '\n' then 0 else 2 + runLength cs
      else 1 + runLength (d :: cs)

end Freshen.Quoted
