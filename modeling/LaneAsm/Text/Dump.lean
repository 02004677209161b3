import LaneAsm.Text.Hex

/-!
Dumps of bytes: lines of an offset, sixteen bytes in hexadecimal, and the same bytes as characters.
-/
namespace LaneAsm.Text

/-- A byte as a character of a dump; what is not printable ASCII is a dot. -/
def dumpChar (b : UInt8) : Char := if 32 ≤ b && b ≤ 126 then Char.ofNat b.toNat else '.'

/-- The digits of the bytes of a line. There is a gap after eight columns, and columns without a
byte are blank. -/
def dumpColumns : (column : Nat) → List UInt8 → List Char
  | column, bs =>
    if column < 16 then
      let cell := match bs with
        | b :: _ => hexByte b
        | [] => [' ', ' ']
      cell ++ (if column = 7 then [' ', ' '] else [' ']) ++ dumpColumns (column + 1) bs.tail
    else []
termination_by column => 16 - column

/-- A line of a dump: up to sixteen bytes from an offset on. -/
def dumpLine (offset : Nat) (bs : List UInt8) : String :=
  hexPadded 8 offset ++ "  " ++ String.ofList (dumpColumns 0 bs) ++ " |"
    ++ String.ofList (bs.map dumpChar) ++ "|\n"

/-- The lines of a dump of the bytes from an offset on. -/
def dumpLines (offset : Nat) (bs : List UInt8) : List String :=
  if bs.isEmpty then []
  else dumpLine offset (bs.take 16) :: dumpLines (offset + 16) (bs.drop 16)
termination_by bs.length
decreasing_by
  cases bs with
  | nil => contradiction
  | cons b r => simp only [List.length_drop, List.length_cons]; omega

/-- The dump of some bytes. -/
def dump (bs : List UInt8) : String := String.join (dumpLines 0 bs)

end LaneAsm.Text
