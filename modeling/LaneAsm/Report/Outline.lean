/-!
Outlines: trees of lines, drawn with branches.
-/
namespace LaneAsm

/-- A tree of lines. -/
inductive Outline where
  | node (line : String) (children : List Outline)
deriving Repr

namespace Outline

mutual

/-- The lines below a node, each behind `lead`. -/
def branches (lead : String) : List Outline → String
  | [] => ""
  | [last] => branch lead "└── " "    " last
  | child :: next :: rest =>
    branch lead "├── " "│   " child ++ branches lead (next :: rest)

/-- A node behind its edge, and the lines below it. -/
def branch (lead edge indent : String) : Outline → String
  | .node line children => lead ++ edge ++ line ++ "\n" ++ branches (lead ++ indent) children

end

/-- The text of an outline: the line of its root and its branches. -/
def render : Outline → String
  | .node line children => line ++ "\n" ++ branches "" children

end Outline

end LaneAsm
