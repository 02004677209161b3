import LaneAsm.Text.Hex

/-!
JSON documents and their text. Objects keep the order of their members, and numbers their text.
-/
namespace LaneAsm

inductive Json where
  | null
  | bool (b : Bool)
  | num (text : String)
  | str (s : String)
  | arr (items : List Json)
  | obj (members : List (String × Json))
deriving Repr, Inhabited

namespace Json

/-- What kind of value a document is, in words. -/
def kindName : Json → String
  | .null => "null"
  | .bool _ => "bool"
  | .num _ => "number"
  | .str _ => "string"
  | .arr _ => "array"
  | .obj _ => "object"

/-- A character inside a string. Besides what JSON demands, the characters that mean something in
markup and the two line separators are escaped. -/
def escapeChar (c : Char) : List Char :=
  let n := c.toNat
  match c with
  | '"' => ['\\', '"']
  | '\\' => ['\\', '\\']
  | '\n' => ['\\', 'n']
  | '\r' => ['\\', 'r']
  | '\t' => ['\\', 't']
  | c =>
    if n < 0x20 || c = '<' || c = '>' || c = '&' || n = 0x2028 || n = 0x2029 then
      '\\' :: 'u' :: (Text.hexPadded 4 n).toList
    else [c]

/-- A string with its quotes. -/
def quoted (s : String) : String :=
  String.ofList ('"' :: s.toList.flatMap escapeChar ++ ['"'])

/-- A line break followed by two spaces for each level. -/
def newline (level : Nat) : String := String.ofList ('\n' :: List.replicate (2 * level) ' ')

/-- Items between brackets, each on a line of its own at a level; nothing stands between the
brackets of an empty list. -/
def bracketed (level : Nat) (left right : String) (items : List String) : String :=
  if items.isEmpty then left ++ right
  else left ++ String.intercalate "," (items.map (newline (level + 1) ++ ·)) ++ newline level ++ right

mutual

/-- The text of a document whose brackets stand at a level. -/
def renderAt (level : Nat) : Json → String
  | .null => "null"
  | .bool b => if b then "true" else "false"
  | .num text => text
  | .str s => quoted s
  | .arr items => bracketed level "[" "]" (renderItems level items)
  | .obj members => bracketed level "\x7b" "\x7d" (renderMembers level members)

/-- The texts of the items of an array. -/
def renderItems (level : Nat) : List Json → List String
  | [] => []
  | v :: rest => renderAt (level + 1) v :: renderItems level rest

/-- The texts of the members of an object. -/
def renderMembers (level : Nat) : List (String × Json) → List String
  | [] => []
  | (k, v) :: rest => (quoted k ++ ": " ++ renderAt (level + 1) v) :: renderMembers level rest

end

/-- The text of a document, one item or member on each line. -/
def render (v : Json) : String := renderAt 0 v

end Json

end LaneAsm
