/-!
# Text under construction

A `TextBuffer` holds the text written so far; `write`, `newline`, `indent` and `space` add to its
end.
-/

namespace Freshen

/-- Blanks per indentation level. -/
def indentWidth : Nat := 4

/-- The text written so far. -/
structure TextBuffer where
  text : String

namespace TextBuffer

/-- Nothing written yet. -/
def empty : TextBuffer := ⟨""⟩

/-- Adds a piece of text. -/
def write (b : TextBuffer) (piece : String) : TextBuffer := ⟨b.text ++ piece⟩

/-- Ends the line. -/
def newline (b : TextBuffer) : TextBuffer := ⟨b.text.push '\n'⟩

/-- Adds one blank. -/
def space (b : TextBuffer) : TextBuffer := ⟨b.text.push ' '⟩

/-- Adds the blanks of an indentation level. -/
def indent (b : TextBuffer) (level : Nat) : TextBuffer :=
  ⟨b.text ++ "".pushn ' ' (level * indentWidth)⟩

/-- Number of bytes written. -/
def size (b : TextBuffer) : Nat := b.text.utf8ByteSize

/-- Whether nothing was written. -/
def isEmpty (b : TextBuffer) : Bool := b.text.isEmpty

/-- Ends the last line if it is not ended. -/
def endLine (b : TextBuffer) : TextBuffer :=
  if b.text.toList.getLast? = some '\n' then b else b.newline

end TextBuffer

end Freshen
