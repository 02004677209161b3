import LaneAsm.Msa.Insn
import LaneAsm.Text.Hex

/-!
Disassembly of MSA words: `decode?` reads the fields of a word and `Insn.text` writes an instruction.
-/
namespace LaneAsm.Msa

/-- The `n` bits of a word from bit `low` on. -/
def field (w low n : Nat) : Nat := w / 2 ^ low % 2 ^ n

/-- The register number at a place of a word. -/
def numAt (w low : Nat) : Num := Fin.ofNat 32 (field w low 5)

/-- The format and the count of a vector shift. -/
def shiftOfField (f : Nat) : Format × Nat :=
  if 0x70 ≤ f then (.b, f % 8)
  else if 0x60 ≤ f then (.h, f % 16)
  else if 0x40 ≤ f then (.w, f % 32)
  else (.d, f % 64)

/-- The format of a number below four. -/
def Format.ofCode (n : Nat) : Format := (Format.all[n]?).getD .d

/-- Reads a vector instruction. -/
def decodeVector? (w : Nat) : Option Insn :=
  let minor := field w 0 6
  let wt := numAt w 16
  let ws := numAt w 11
  let wd := numAt w 6
  if minor = 0x1E then
    (VecOp.all.find? (·.code == field w 21 5)).map fun op => .vec op wd ws wt
  else if minor = 0x09 then
    let (df, count) := shiftOfField (field w 16 7)
    (BitOp.all.find? (·.code == field w 23 3)).map fun op => .bit op df count wd ws
  else if minor = 0x19 then
    if field w 16 10 = 0xBE then some (.move wd ws) else some (.splat (field w 16 6) wd ws)
  else if minor = 0x1A ∨ minor = 0x1B ∨ minor = 0x1C then
    (Float3.all.find? (·.code == (minor, field w 22 4))).map fun op =>
      .float op (field w 21 1 == 1) wd ws wt
  else if minor / 4 = 0x8 ∨ minor / 4 = 0x9 then
    let offset := Int.bmod (field w 16 10) 1024
    some (.access (minor / 4 == 0x9) (.ofCode (field w 0 2)) wd ws offset)
  else
    (Three.named.find? (·.code == (minor, field w 23 3))).map fun op =>
      .three op (.ofCode (field w 21 2)) wd ws wt

/-- Reads an instruction. Bits that an instruction does not use do not matter. -/
def decode? (w : Nat) : Option Insn :=
  let major := field w 26 6
  let low := UInt16.ofNat (field w 0 16)
  let rs := numAt w 21
  let rt := numAt w 16
  if w = 0 then some .nop
  else if major = 0x1E then decodeVector? w
  else if major = 0x11 then
    (BranchOp.all.find? (·.code == field w 21 5)).map fun op => .branch op rt low
  else if major = 0 then
    (Special.all.find? (·.code == field w 0 6)).map fun op =>
      .special op (numAt w 11) rs rt (field w 6 5)
  else (ImmOp.all.find? (·.code == major)).map fun op => .imm op rt rs low

/-- The name of a vector register. -/
def vectorName (n : Num) : String := "$w" ++ toString n.val

/-- The name of a general register. -/
def generalName (n : Num) : String := "$" ++ toString n.val

/-- A name and operands separated by commas. -/
def line (name : String) (operands : List String) : String :=
  name ++ " " ++ ", ".intercalate operands

/-- The text of an instruction. -/
def Insn.text : Insn → String
  | .nop => "nop"
  | .three op df wd ws wt =>
    line (op.name ++ "." ++ df.letter) [vectorName wd, vectorName ws, vectorName wt]
  | .float op double wd ws wt =>
    line (op.name ++ "." ++ if double then "d" else "w") [vectorName wd, vectorName ws, vectorName wt]
  | .vec op wd ws wt => line op.name [vectorName wd, vectorName ws, vectorName wt]
  | .bit op df count wd ws =>
    line (op.name ++ "." ++ df.letter) [vectorName wd, vectorName ws, toString count]
  | .splat element wd ws =>
    line "splati" [vectorName wd, vectorName ws ++ "[" ++ Text.hex element ++ "]"]
  | .move wd ws => line "move.v" [vectorName wd, vectorName ws]
  | .access store df wd rs offset =>
    line ((if store then "st." else "ld.") ++ df.letter)
      [vectorName wd, toString (offset * 2 ^ df.code) ++ "(" ++ generalName rs ++ ")"]
  | .branch op wt offset => line op.name [vectorName wt, toString offset.toInt16.toInt]
  | .special op rd rs rt count =>
    if op.isShift then line op.name [generalName rd, generalName rt, toString count]
    else line op.name [generalName rd, generalName rs, generalName rt]
  | .imm op rt rs value =>
    let signed := toString value.toInt16.toInt
    match op with
    | .beq | .bne => line op.name [generalName rs, generalName rt, signed]
    | .lui => line op.name [generalName rt, Text.hex value.toNat]
    | .lw | .sw | .ld | .sd => line op.name [generalName rt, signed ++ "(" ++ generalName rs ++ ")"]
    | .andi | .ori | .xori => line op.name [generalName rt, generalName rs, Text.hex value.toNat]
    | .addiu | .daddiu => line op.name [generalName rt, generalName rs, signed]

/-- The text of a word; a word that encodes nothing known is written as a number. -/
def wordText (w : Nat) : String :=
  match decode? w with
  | some i => i.text
  | none => ".word 0x" ++ Text.hexPadded 8 w

/-- The words of some code, the lowest byte first; bytes short of a word are left out. -/
def words : List UInt8 → List Nat
  | a :: b :: c :: d :: rest =>
    (a.toNat + b.toNat * 2 ^ 8 + c.toNat * 2 ^ 16 + d.toNat * 2 ^ 24) :: words rest
  | _ => []

/-- The disassembly of some code: one line for each word, with its offset. -/
def disassemble (code : Bytes) : String :=
  String.join ((words code.toList).zipIdx.map fun (w, i) =>
    "0x" ++ Text.hexPadded 4 (4 * i) ++ ": " ++ Text.hexPadded 8 w ++ "  " ++ wordText w ++ "\n")

end LaneAsm.Msa
