import Freshen.Text.Width

/-!
# Lines of a text

Positions count characters.

- `Lines.split`: the lines of a text; each keeps its terminator, which is one of `isTerminator`, or
  a carriage return with the line feed after it.
- `Lines.locate`: the line in which a position lies, and where the line starts.  The end of the text
  belongs to the last line.
- `Lines.cells`: the columns of a line as it is shown.
- `Lines.charOffset`: the position at a byte offset.
-/

namespace Freshen.Lines

/-- The characters that end a line: line feed, vertical tab, form feed, carriage return, next line,
and the separators of lines and of paragraphs. -/
def isTerminator (c : Char) : Bool :=
  c == '\n' || c == '\x0b' || c == '\x0c' || c == '\r' || c == '\u0085' || c == '\u2028' ||
    c == '\u2029'

/-- The lines of a text, each with its terminator. -/
def split : List Char → List (List Char)
  | [] => []
  | '\r' :: '\n' :: cs => ['\r', '\n'] :: split cs
  | c :: cs =>
      if isTerminator c then [c] :: split cs
      else match split cs with
        | [] => [[c]]
        | line :: lines => (c :: line) :: lines

/-- The index of the last of `lines` that starts at or before `position`, and where it starts; the
first of them has the index `index` and starts at `start`. -/
def locateFrom (position : Nat) : (index start : Nat) → List (List Char) → Nat × Nat
  | index, start, line :: next :: lines =>
      if start + line.length ≤ position then
        locateFrom position (index + 1) (start + line.length) (next :: lines)
      else (index, start)
  | index, start, _ => (index, start)

/-- The index of the line in which a position lies, and where the line starts. -/
def locate (lines : List (List Char)) (position : Nat) : Nat × Nat :=
  locateFrom position 0 0 lines

/-- The position at a byte offset. -/
def charOffset : List Char → Nat → Nat
  | [], _ => 0
  | c :: cs, offset => if offset = 0 then 0 else 1 + charOffset cs (offset - c.utf8Size)

/-- A line without the white space at its end. -/
def trimEnd (line : List Char) : List Char := (line.reverse.dropWhile Width.isSpace).reverse

/-- Columns between tab stops. -/
def tabWidth : Nat := 4

/-- What is shown for the character at position `index` of a line.  A tab reaches to the next tab
stop; other white space is a blank. -/
def cell (index : Nat) (c : Char) : List Char :=
  if c = '\t' then List.replicate (tabWidth - index % tabWidth) ' '
  else if Width.isSpace c then [' ']
  else [c]

/-- The columns that the character at position `index` of a line takes up. -/
def cellWidth (index : Nat) (c : Char) : Nat :=
  if c = '\t' then tabWidth - index % tabWidth
  else if Width.isSpace c then 1
  else Width.ofChar c

/-- The line as it is shown. -/
def cells (line : List Char) : List Char :=
  ((trimEnd line).mapIdx cell).flatten

/-- The columns of positions `0` to `count - 1` of a line; positions after its end take up one. -/
def widths (line : List Char) (count : Nat) : List Nat :=
  let shown := (trimEnd line).mapIdx cellWidth
  shown.take count ++ List.replicate (count - shown.length) 1

end Freshen.Lines
