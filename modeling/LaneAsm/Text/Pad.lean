/-!
Texts filled up with spaces to a width.
-/
namespace LaneAsm.Text

/-- Some spaces. -/
def spaces (n : Nat) : String := String.ofList (List.replicate n ' ')

/-- A text with spaces after it, up to a width. -/
def padRight (width : Nat) (s : String) : String := s ++ spaces (width - s.length)

/-- A text with spaces before it, up to a width. -/
def padLeft (width : Nat) (s : String) : String := spaces (width - s.length) ++ s

/-- A text with spaces on both sides, up to a width; a spare space goes to the right. -/
def center (width : Nat) (s : String) : String :=
  let left := (width - s.length) / 2
  spaces left ++ padRight (width - left) s

end LaneAsm.Text
