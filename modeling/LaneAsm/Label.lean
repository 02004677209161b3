import LaneAsm.Text.Symbol

/-!
Labels: named positions of a program.
-/
namespace LaneAsm

/-- A label. Its number is its place among the labels of the program that made it. -/
structure Label where
  name : RawText
  id : Nat
deriving Repr, DecidableEq, Hashable, Inhabited

/-- A reference to a label, which may be missing. -/
abbrev LabelRef := Option Label

/-- The name of a reference; a missing label has the empty name. -/
def LabelRef.name (l : LabelRef) : RawText :=
  match l with
  | some l => l.name
  | none => []

end LaneAsm
