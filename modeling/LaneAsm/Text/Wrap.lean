import LaneAsm.Text.Split

/-!
Wrapping a paragraph into lines. A line but the last costs the square of the difference between its
width and the limit, and more if it is too wide; the lines with the least cost in all are taken.
-/
namespace LaneAsm.Text

/-- A way to break words into lines: its cost, and the number of words on its first line. -/
structure Break where
  cost : Nat
  count : Nat
deriving Repr, DecidableEq

/-- What a line costs beyond the square if it is too wide. -/
def overfullCost : Nat := 100000

/-- The cost of a line that is not the last one. -/
def lineCost (limit width : Nat) : Nat :=
  if width ≤ limit then (limit - width) ^ 2 else (width - limit) ^ 2 + overfullCost

/-- The widths of a line of `width` as words are added to it, each after a space. -/
def lineWidths : (width : Nat) → List Nat → List Nat
  | width, [] => [width]
  | width, w :: ws => width :: lineWidths (width + 1 + w) ws

/-- The cheaper of two ways, and the first of two that cost the same. -/
def Break.cheaper (a b : Break) : Break := if b.cost < a.cost then b else a

/-- The best ways to break words of some widths: one for all of them, then one for each tail of the
list. Words that fit on one line stay on it, and that costs nothing. -/
def breaks (limit : Nat) : List Nat → List Break
  | [] => []
  | w :: ws =>
    let later := breaks limit ws
    let widths := lineWidths w ws
    let ways := (widths.zip later).zipIdx.map fun ((width, rest), i) =>
      (⟨lineCost limit width + rest.cost, i + 1⟩ : Break)
    let best : Break := match ways with
      | [] => ⟨0, 1⟩
      | way :: ways => if widths.getLastD 0 ≤ limit then ⟨0, ws.length + 1⟩
          else ways.foldl Break.cheaper way
    best :: later

/-- The words that go on a line with room for `left` more of them, and the lines after it. -/
def gatherLines : (left : Nat) → List (List Char × Break) → List (List Char) × List (List (List Char))
  | _, [] => ([], [])
  | 0, (word, b) :: r =>
    let (line, lines) := gatherLines (b.count - 1) r
    ([], (word :: line) :: lines)
  | left + 1, (word, _) :: r =>
    let (line, lines) := gatherLines left r
    (word :: line, lines)

/-- The lines of a paragraph; they are no wider than `limit`, unless a word is. -/
def wrap (limit : Nat) (s : List Char) : List (List Char) :=
  let words := splitAt ' ' s
  let widths := words.map List.length
  let limit := widths.foldl Nat.max limit
  (gatherLines 0 (words.zip (breaks limit widths))).2.map ([' '].intercalate ·)

end LaneAsm.Text
