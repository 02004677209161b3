import LaneAsm.Log.Level
import LaneAsm.Text.Blank
import LaneAsm.Text.Quoted

/-!
Log records as lines of `key=value` pairs. A key or value that could be misread is quoted.
-/
namespace LaneAsm

/-- A value in a log record. -/
inductive LogValue where
  | null
  | bool (b : Bool)
  | int (n : Int)
  | text (s : String)
deriving Repr, DecidableEq

def LogValue.render : LogValue → String
  | .null => "<nil>"
  | .bool b => if b then "true" else "false"
  | .int n => toString n
  | .text s => s

/-- A key with its value. -/
structure Attr where
  key : String
  value : LogValue
deriving Repr, DecidableEq

namespace Attr

/-- Whether a character makes quotes necessary: a space, an equals sign, a quote, a control
character, or beyond ASCII one that cannot be printed or was replaced. A backslash does not. -/
def needsQuotes (c : Char) : Bool :=
  let n := c.toNat
  if n < 0x80 then n ≤ 0x20 || c = '=' || c = '"'
  else n = 0xFFFD || Text.isBlank c || !Text.isPrintable c

/-- A key or value, quoted if it is empty or has a character that makes it necessary. -/
def word (s : String) : String :=
  if s.isEmpty || s.toList.any needsQuotes then Text.quote s.toList else s

/-- The text of a pair; a pair with neither key nor value has none. -/
def render? (a : Attr) : Option String :=
  if a.key = "" && a.value = .null then none
  else some (word a.key ++ "=" ++ word a.value.render)

/-- The key of a value that has none. -/
def missingKey : String := "!BADKEY"

/-- The pairs of a list of alternating keys and values. What cannot be a key, and a key at the end,
are values without a key. -/
def ofValues : List LogValue → List Attr
  | [] => []
  | [v] => [⟨missingKey, v⟩]
  | .text key :: v :: rest => ⟨key, v⟩ :: ofValues rest
  | k :: rest => ⟨missingKey, k⟩ :: ofValues rest

end Attr

end LaneAsm
