import LaneAsm.Text.Symbol

/-!
Raw texts and their bytes. `RawText.ofUtf8` reads the well-formed sequences of UTF-8 as characters
and keeps every other byte as it is.
-/
namespace LaneAsm

namespace Text

/-- Whether a byte continues a sequence. -/
def isContinuation (b : UInt8) : Bool := b &&& 0xC0 == 0x80

/-- The character that a leading byte and the bytes after it spell, and how many of the latter it
takes. A sequence must be the shortest for its character, which must not be a surrogate. -/
def decodeChar? (b : UInt8) (r : List UInt8) : Option (Char × Nat) :=
  let spell (size low high : Nat) (first : UInt8) : Option (Char × Nat) :=
    let more := r.take size
    let n := more.foldl (fun n c => n * 64 + (c &&& 0x3F).toNat) first.toNat
    if more.length = size && more.all isContinuation && low ≤ n && n ≤ high
        && !(0xD800 ≤ n && n ≤ 0xDFFF) then
      some (Char.ofNat n, size)
    else none
  if b < 0x80 then some (Char.ofNat b.toNat, 0)
  else if b < 0xC0 then none
  else if b < 0xE0 then spell 1 0x80 0x7FF (b &&& 0x1F)
  else if b < 0xF0 then spell 2 0x800 0xFFFF (b &&& 0x0F)
  else if b < 0xF8 then spell 3 0x10000 0x10FFFF (b &&& 0x07)
  else none

/-- The bytes of a text. -/
def toUtf8 (s : String) : List UInt8 := s.toUTF8.toList

end Text

namespace Symbol

/-- The bytes of a symbol. -/
def toUtf8 : Symbol → List UInt8
  | .char c => Text.toUtf8 (String.singleton c)
  | .stray b => [b]

/-- The number of bytes of a symbol. -/
def byteLength : Symbol → Nat
  | .char c => c.utf8Size
  | .stray _ => 1

end Symbol

namespace RawText

/-- The raw text that some bytes spell. -/
def ofUtf8 : List UInt8 → RawText
  | [] => []
  | b :: r =>
    match Text.decodeChar? b r with
    | some (c, used) => .char c :: ofUtf8 (r.drop used)
    | none => .stray b :: ofUtf8 r
termination_by bs => bs.length
decreasing_by
  · simp only [List.length_drop, List.length_cons]; omega
  · simp only [List.length_cons]; omega

/-- The number of bytes of a raw text. -/
def byteLength (s : RawText) : Nat := @List.sum Nat _ .ofOfNat0 (s.map Symbol.byteLength)

end RawText

end LaneAsm
