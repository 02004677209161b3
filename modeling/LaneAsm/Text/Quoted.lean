import LaneAsm.Text.Hex
import LaneAsm.Text.Printable
import LaneAsm.Text.Symbol

/-!
Quoted texts: a text between double quotes in which quotes, backslashes and characters that cannot
be printed are written as escapes. Stray bytes are always escapes.
-/
namespace LaneAsm

namespace Text

/-- The escape of a character that cannot be printed: two digits below U+0080, four up to U+FFFF
and eight above; the control characters with a letter of their own use it. -/
def escapeChar (c : Char) : List Char :=
  let n := c.toNat
  match n with
  | 7 => ['\\', 'a']
  | 8 => ['\\', 'b']
  | 9 => ['\\', 't']
  | 10 => ['\\', 'n']
  | 11 => ['\\', 'v']
  | 12 => ['\\', 'f']
  | 13 => ['\\', 'r']
  | _ =>
    if n < 0x80 then '\\' :: 'x' :: (hexPadded 2 n).toList
    else if n < 0x10000 then '\\' :: 'u' :: (hexPadded 4 n).toList
    else '\\' :: 'U' :: (hexPadded 8 n).toList

/-- A character as it stands inside quotes of the kind `mark`. -/
def quoteChar (mark c : Char) : List Char :=
  if c = mark || c = '\\' then ['\\', c]
  else if isPrintable c then [c]
  else escapeChar c

/-- A text between double quotes. -/
def quote (s : List Char) : String :=
  String.ofList ('"' :: s.flatMap (quoteChar '"') ++ ['"'])

/-- A character between single quotes. -/
def quoteSingle (c : Char) : String :=
  String.ofList ('\x27' :: quoteChar '\x27' c ++ ['\x27'])

/-- A symbol as it stands inside quotes of the kind `mark`. -/
def quoteSymbol (mark : Char) : Symbol → List Char
  | .char c => quoteChar mark c
  | .stray b => '\\' :: 'x' :: (hexPadded 2 b.toNat).toList

end Text

/-- A raw text between double quotes. -/
def RawText.quote (s : RawText) : String :=
  String.ofList ('"' :: s.flatMap (Text.quoteSymbol '"') ++ ['"'])

end LaneAsm
