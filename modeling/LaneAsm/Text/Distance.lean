/-!
The edit distance of two lists: the least number of insertions, deletions and replacements that turn
one into the other.
-/
namespace LaneAsm.Text

variable {α : Type} [BEq α]

/-- The rest of a row of distances for one more element `x` of the first list. `left` is the entry
before it, and `above` the row before it from one column further left on. -/
def distanceRow (x : α) : (left : Nat) → (above : List Nat) → List α → List Nat
  | left, diagonal :: up :: above, y :: ys =>
    let d := if x == y then diagonal else 1 + min up (min left diagonal)
    d :: distanceRow x d (up :: above) ys
  | _, _, _ => []

/-- The last row of distances, from the row for the first `done` elements on. -/
def distanceRows (ys : List α) : (done : Nat) → (row : List Nat) → List α → List Nat
  | _, row, [] => row
  | done, row, x :: xs => distanceRows ys (done + 1) ((done + 1) :: distanceRow x (done + 1) row ys) xs

/-- The edit distance of two lists. -/
def editDistance (xs ys : List α) : Nat :=
  ((distanceRows ys 0 (List.range (ys.length + 1)) xs).getLast?).getD 0

end LaneAsm.Text
