import LaneAsm.Instances

/-!
Cutting texts at symbols and words. A text is a list; it may be one of characters or a raw one.
-/
namespace LaneAsm.Text

theorem length_dropWhile_le {α : Type} (p : α → Bool) (s : List α) :
    (s.dropWhile p).length ≤ s.length := by
  induction s with
  | nil => simp
  | cons c r ih =>
    rw [List.dropWhile_cons]
    split
    · simp only [List.length_cons]; omega
    · exact Nat.le_refl _

variable {α : Type} [DecidableEq α]

/-- The part before the first `sep` and the part after it, or `none` if there is no `sep`. -/
def cut? (sep : α) (s : List α) : Option (List α × List α) :=
  match s.dropWhile (· ≠ sep) with
  | [] => none
  | _ :: r => some (s.takeWhile (· ≠ sep), r)

/-- The parts between the occurrences of `sep`; there is always at least one. -/
def splitAt (sep : α) (s : List α) : List (List α) :=
  match _h : s.dropWhile (· ≠ sep) with
  | [] => [s]
  | _ :: r => s.takeWhile (· ≠ sep) :: splitAt sep r
termination_by s.length
decreasing_by
  have shorter := length_dropWhile_le (· ≠ sep) s
  rw [_h] at shorter
  simp only [List.length_cons] at shorter
  omega

/-- Where a word first occurs in a text that stands `start` symbols into a longer one. -/
def position? (word : List α) : (start : Nat) → List α → Option Nat
  | _, [] => none
  | start, c :: r =>
    if word.isPrefixOf (c :: r) then some start else position? word (start + 1) r

/-- The part before the first occurrence of a word, or the whole text if it does not occur. -/
def before (word s : List α) : List α :=
  match position? word 0 s with
  | some n => s.take n
  | none => s

/-- The lines of a text, without the `newline` that ends them; the last line may lack it. -/
def lines (newline : α) (s : List α) : List (List α) :=
  let parts := splitAt newline s
  if parts.getLast? = some [] then parts.dropLast else parts

/-- A line without the `mark` that may end it. -/
def dropFinal (mark : α) (l : List α) : List α :=
  if l.getLast? = some mark then l.dropLast else l

end LaneAsm.Text
