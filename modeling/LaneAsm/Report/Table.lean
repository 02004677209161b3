import LaneAsm.Text.Blank
import LaneAsm.Text.Pad
import LaneAsm.Text.Wrap

/-!
Tables of text: a frame of `+`, `-` and `|` around cells that are as wide as the widest of their
column. A long cell is wrapped, and its row is then as high as the cell.
-/
namespace LaneAsm

/-- How the cells of a table are placed; `natural` puts numbers to the right and all else to the
left. -/
inductive Placement where
  | center
  | natural
deriving Repr, DecidableEq

/-- A cell of a table: its lines, and the width that it asks for. -/
structure Cell where
  lines : List String
  width : Nat
deriving Repr, DecidableEq

namespace Cell

/-- The width from which on cells are wrapped. -/
def wrapWidth : Nat := 30

/-- The cell of a text. The lines of the text become one paragraph, which is wrapped at the widest of
them or at `wrapWidth`. -/
def ofText (s : String) : Cell :=
  let parts := Text.splitAt '\n' s.toList
  let limit := Nat.min wrapWidth ((parts.map List.length).foldl Nat.max 0)
  let lines := Text.wrap limit ([' '].intercalate parts)
  ⟨lines.map String.ofList, (lines.map List.length).foldl Nat.max limit⟩

/-- Line `i` of a cell, which may have fewer lines than its row. -/
def line (c : Cell) (i : Nat) : String := (c.lines[i]?).getD "  "

end Cell

/-- A table: a header and rows of as many cells. -/
structure Table where
  header : List String
  rows : List (List String)
deriving Repr, DecidableEq

namespace Table

/-- Whether digits read as a whole number: they may be grouped in threes by commas. -/
def isWhole (s : List Char) : Bool :=
  let digits (n : List Char) : Bool := !n.isEmpty && n.all Char.isDigit
  match Text.splitAt ',' s with
  | [n] => digits n
  | first :: groups => digits first && first.length ≤ 3
      && groups.all fun n => digits n && n.length == 3
  | [] => false

/-- Whether a text reads as a decimal number, perhaps with a sign or a fraction. -/
def isNumber (s : List Char) : Bool :=
  let unsigned := if s.head? = some '-' then s.drop 1 else s
  match Text.cut? '.' unsigned with
  | some (whole, fraction) => isWhole whole && !fraction.isEmpty && fraction.all Char.isDigit
  | none => isWhole unsigned

/-- A line of a cell, filled up to some width. -/
def place (p : Placement) (width : Nat) (line : String) : String :=
  match p with
  | .center => Text.center width line
  | .natural =>
    if isNumber (Text.trim line.toList) then Text.padLeft width line else Text.padRight width line

/-- The width of each column. -/
def widths (rows : List (List Cell)) : List Nat :=
  match rows with
  | [] => []
  | row :: rows =>
    rows.foldl (fun ws row => List.zipWith (fun w c => Nat.max w c.width) ws row)
      (row.map Cell.width)

/-- A row of cells, line by line. -/
def rowText (p : Placement) (ws : List Nat) (row : List Cell) : String :=
  let height := (row.map (·.lines.length)).foldl Nat.max 0
  String.join ((List.range height).map fun i =>
    String.join (List.zipWith (fun w (c : Cell) => "| " ++ place p w (c.line i) ++ " ") ws row)
      ++ "|\n")

/-- The line between parts of a table. -/
def border (ws : List Nat) : String :=
  String.join (ws.map fun w => "+" ++ String.ofList (List.replicate (w + 2) '-')) ++ "+\n"

/-- The text of a table, with a centred header. -/
def render (p : Placement) (t : Table) : String :=
  let header := t.header.map Cell.ofText
  let rows := t.rows.map (·.map Cell.ofText)
  let ws := widths (header :: rows)
  border ws ++ rowText .center ws header ++ border ws ++ String.join (rows.map (rowText p ws))
    ++ border ws

end Table

end LaneAsm
