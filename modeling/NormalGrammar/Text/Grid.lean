import NormalGrammar.Text.Width

/-!
# Framed tables of text

A grid is a row of headings and further rows of the same length.  Every column is as wide as its widest line, with a
blank on both sides, and cells are set to the left.  A cell with several lines makes its row higher.  Only the headings
are separated from the rows below.
-/

namespace NormalGrammar.Text

/-- Rows of cells, the headings first. -/
structure Grid where
  headings : List String
  rows : List (List String)

/-- The characters at the left, between columns and at the right of a line, and those that fill it. -/
structure Border where
  left : String
  middle : String
  right : String
  fill : Char

namespace Border

def top : Border := ⟨"╭", "┬", "╮", '─'⟩

def separator : Border := ⟨"├", "┼", "┤", '─'⟩

def bottom : Border := ⟨"╰", "┴", "╯", '─'⟩

def inner : Border := ⟨"│", "│", "│", ' '⟩

/-- A line of the frame, given its text for every column. -/
def line (b : Border) (texts : List String) : String := b.left ++ b.middle.intercalate texts ++ b.right

/-- A line that shows nothing but the frame. -/
def rule (b : Border) (widths : List Nat) : String := b.line (widths.map fun w => "".pushn b.fill (w + 2))

end Border

namespace Grid

/-- The lines of a cell. -/
def cellLines (cell : String) : List String := cell.splitOn "\n"

def cellWidth (cell : String) : Nat := ((cellLines cell).map width).foldl max 0

/-- A line of a cell with a blank on both sides, filled up to the width of its column. -/
def padded (columnWidth : Nat) (line : String) : String :=
  (" " ++ line).pushn ' ' (columnWidth - width line + 1)

/-- The width of every column. -/
def widths (g : Grid) : List Nat :=
  g.rows.foldl (fun ws row => ws.zipWith max (row.map cellWidth)) (g.headings.map cellWidth)

/-- A row as lines, as many as its highest cell has. -/
def rowLines (widths : List Nat) (row : List String) : List String :=
  let cells := row.map cellLines
  let height := (cells.map List.length).foldl max 1
  (List.range height).map fun k =>
    Border.inner.line (widths.zipWith (fun w lines => padded w (lines.getD k "")) cells)

def lines (g : Grid) : List String :=
  let ws := g.widths
  [Border.top.rule ws] ++ rowLines ws g.headings ++ [Border.separator.rule ws] ++
    g.rows.flatMap (rowLines ws) ++ [Border.bottom.rule ws]

def text (g : Grid) : String := "\n".intercalate g.lines

end Grid

end NormalGrammar.Text
