import ApuScore.Text.Width
/-
  Tables — rows of cells in aligned columns.

  The text of a cell is cut into lines. Each line of a cell is a space, the text
  padded on the right to the widest line of its column, and a space. A row has as
  many lines as its tallest cell; shorter cells are filled up with blank lines.
  Nothing stands between cells, and rows keep the spaces at their end.
-/

namespace ApuScore.Table

def cellLines (text : String) : List String := text.splitOn "\n"

/-- The columns that a cell takes. -/
def cellWidth (text : String) : Nat :=
  (cellLines text).foldl (fun widest line => max widest (Width.ofText line)) 0

/-- The greater of each two widths; the longer list gives the rest. -/
def maxEach : List Nat → List Nat → List Nat
  | [], ys => ys
  | xs, [] => xs
  | x :: xs, y :: ys => max x y :: maxEach xs ys

def columns (rows : List (List String)) : List Nat :=
  rows.foldl (fun widths row => maxEach widths (row.map cellWidth)) []

/-- A line of a cell in a column. -/
def padded (columnWidth : Nat) (line : String) : String :=
  let blanks := List.replicate (columnWidth - Width.ofText line) ' '
  " " ++ line ++ String.ofList blanks ++ " "

/-- The lines of a row in columns of the given widths. -/
def rowLines (widths : List Nat) (row : List String) : List String :=
  let cells := row.map cellLines
  let height := cells.foldl (fun tallest lines => max tallest lines.length) 0
  (List.range height).map fun i =>
    String.join (List.zipWith (fun width lines => padded width (lines.getD i "")) widths cells)

def lines (rows : List (List String)) : List String :=
  rows.flatMap (rowLines (columns rows))

end ApuScore.Table
