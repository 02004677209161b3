import LaneAsm.Text.Symbol

/-!
White space and trimming. White space is the Unicode property White_Space, which has more members
than `Char.isWhitespace`.
-/
namespace LaneAsm

namespace Text

/-- White space: the control characters from tab to carriage return, the space, and the other
characters with the property White_Space. -/
def isBlank (c : Char) : Bool :=
  let n := c.toNat
  (0x09 ≤ n && n ≤ 0x0D) || n == 0x20 || n == 0x85 || n == 0xA0 || n == 0x1680
    || (0x2000 ≤ n && n ≤ 0x200A) || n == 0x2028 || n == 0x2029 || n == 0x202F || n == 0x205F
    || n == 0x3000

/-- A list without the items at its two ends that `blank` holds of. -/
def strip {α : Type} (blank : α → Bool) (s : List α) : List α :=
  ((s.dropWhile blank).reverse.dropWhile blank).reverse

/-- A text without the white space at its two ends. -/
def trim (s : List Char) : List Char := strip isBlank s

end Text

/-- Whether a symbol is white space; a stray byte is none. -/
def Symbol.isBlank : Symbol → Bool
  | .char c => Text.isBlank c
  | .stray _ => false

/-- A raw text without the white space at its two ends. -/
def RawText.trim (s : RawText) : RawText := Text.strip Symbol.isBlank s

end LaneAsm
