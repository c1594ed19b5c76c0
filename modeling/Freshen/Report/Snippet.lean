import Freshen.Report.Lines
import Freshen.Span

/-!
# Reports with a piece of source text

A report shows an error message, where it applies, the source line, and a label that points at the
offending part.  A part that reaches over several lines is shown by its first and its last line.

- `Report.render`: the text of a report.
-/

namespace Freshen

/-- An error in a source text. -/
structure Report where
  message : String
  label : String
  /-- The name of the source text. -/
  path : String
  source : String
  span : Span

namespace Report

/-- `n` copies of a character. -/
def repeated (n : Nat) (c : Char) : String := String.ofList (List.replicate n c)

/-- `n` blanks. -/
def blanks (n : Nat) : String := repeated n ' '

/-- A horizontal line over `n` columns. -/
def dashes (n : Nat) : String := repeated n '─'

/-- Text at the right end of a field of `width` columns. -/
def padLeft (width : Nat) (text : String) : String := blanks (width - text.length) ++ text

/-- The line under the source that marks columns `first` to `stop - 1`, with the arrow's origin at
column `middle`.  If nothing is marked, the origin is a plain bar. -/
def markRow (first stop middle : Nat) (widths : List Nat) : String :=
  String.join (widths.mapIdx fun column n =>
    let marked := first ≤ column && column < stop
    if column = middle then
      if marked then "┬" ++ dashes (n - 1) else "│" ++ blanks (n - 1)
    else if marked then dashes n
    else blanks n)

/-- The line that leads from the arrow's origin at column `middle` to the label. -/
def arrowRow (middle : Nat) (widths : List Nat) : String :=
  String.join (widths.mapIdx fun column n =>
    if column = middle then "╰" ++ dashes (n - 1)
    else if middle < column then dashes n
    else blanks n)

/-- The text of a report; every line is ended. -/
def render (r : Report) : String :=
  let text := r.source.toList
  let lines := Lines.split text
  let first := Lines.charOffset text r.span.start
  let stop := Lines.charOffset text r.span.stop
  let (startLine, startOffset) := Lines.locate lines first
  let (endLine, _) := Lines.locate lines (max (stop - 1) first)
  let digits := (toString (endLine + 1)).length
  let gutter := blanks (digits + 2)
  let number := fun (line : Nat) => " " ++ padLeft digits (toString (line + 1)) ++ " │ "
  let line := fun (i : Nat) => lines.getD i []
  let shown := fun (i : Nat) => String.ofList (Lines.cells (line i)) ++ "\n"
  let head :=
    s!"Error: {r.message}\n" ++
    gutter ++ s!"╭─[{r.path}:{startLine + 1}:{first - startOffset + 1}]\n" ++
    gutter ++ "│\n"
  let body :=
    if startLine = endLine then
      let a := first - startOffset
      let z := stop - startOffset
      let middle := (a + z) / 2
      let widths := Lines.widths (line startLine) (z + 2)
      number startLine ++ shown startLine ++
      gutter ++ "│ " ++ markRow a z middle widths ++ "\n" ++
      gutter ++ "│ " ++ arrowRow middle widths ++ " " ++ r.label ++ "\n"
    else
      let columns := (Lines.widths (line endLine) ((line endLine).length + 2)).foldl (· + ·) 0
      number startLine ++ "╭─▶ " ++ shown startLine ++
      (if startLine + 1 < endLine then gutter ++ "┆ ┆   \n" else "") ++
      number endLine ++ "├─▶ " ++ shown endLine ++
      gutter ++ "│ │   " ++ blanks columns ++ "\n" ++
      gutter ++ "│ ╰───" ++ dashes columns ++ " " ++ r.label ++ "\n"
  head ++ body ++ dashes (digits + 2) ++ "╯\n"

end Report

end Freshen
