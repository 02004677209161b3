import LaneAsm.Instances

/-!
Raw texts: what the bytes of a file spell. A file need not be well-formed UTF-8, so besides
characters a raw text may hold stray bytes. They are kept, so that two names that differ in a stray
byte differ; where only characters will do, each reads as the replacement character.
-/
namespace LaneAsm

/-- A symbol of a raw text: a character, or a byte that is part of none. -/
inductive Symbol where
  | char (c : Char)
  | stray (b : UInt8)
deriving Repr, DecidableEq, Hashable, Inhabited

/-- A text whose bytes need not be well-formed UTF-8. -/
abbrev RawText := List Symbol

namespace Symbol

/-- The character that stands for a stray byte. -/
def replacement : Char := Char.ofNat 0xFFFD

/-- The character that a symbol reads as. -/
def toChar : Symbol → Char
  | .char c => c
  | .stray _ => replacement

end Symbol

namespace RawText

/-- The raw text of some characters. -/
def ofChars (s : List Char) : RawText := s.map .char

def ofString (s : String) : RawText := ofChars s.toList

/-- The characters that a raw text reads as. -/
def chars (s : RawText) : List Char := s.map Symbol.toChar

/-- The string that a raw text reads as. -/
def text (s : RawText) : String := String.ofList s.chars

theorem chars_ofChars (s : List Char) : (ofChars s).chars = s := by
  induction s with
  | nil => rfl
  | cons c r ih => exact congrArg (c :: ·) ih

theorem text_ofString (s : String) : (ofString s).text = s := by
  simp [text, ofString, chars_ofChars]

end RawText

end LaneAsm
