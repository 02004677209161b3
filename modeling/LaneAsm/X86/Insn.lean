import LaneAsm.Buffer
import LaneAsm.Operand.Triplet
import LaneAsm.X86.Form

/-!
Machine instructions and their bytes. An instruction is a value; `Insn.bytes` writes it, with a
zero distance where a jump refers to a label.
-/
namespace LaneAsm.X86

/-- A register number. -/
abbrev RegNum := Fin 16

instance neZeroRegNum : @NeZero Nat .ofOfNat0 16 := ⟨by decide⟩

/-- The register-or-memory side of an instruction. -/
inductive Rm where
  | reg (r : RegNum)
  | mem (m : Mem)
deriving Repr, DecidableEq

/-- A machine instruction. -/
inductive Insn where
  /-- Prefixes, opcode, operands and immediate bytes; `r` is the register or the opcode extension. -/
  | legacy (f : Form) (r : RegNum) (x : Rm) (imm : List UInt8)
  /-- The same in VEX, with the vector length and a further register. -/
  | vex (f : Form) (long : Bool) (r v : RegNum) (x : Rm) (imm : List UInt8)
  | push (r : RegNum)
  | pop (r : RegNum)
  /-- Loads a zero-extended immediate. -/
  | movImm (r : RegNum) (value : UInt32)
  /-- Compares the first general register with an immediate. -/
  | cmpImm (value : UInt32)
  | jcc (cc : UInt8) (target : LabelRef)
  | jmp (target : LabelRef)
deriving Repr, DecidableEq

/-- A single bit at a position. -/
def bit (b : Bool) (n : UInt8) : UInt8 := if b then 1 <<< n else 0

/-- Whether a register number needs its extension bit. -/
def high (r : RegNum) : Bool := 8 ≤ r.val

/-- The low three bits of a register number. -/
def low3 (r : RegNum) : UInt8 := UInt8.ofNat (r.val % 8)

/-- The four low bytes of a 32-bit value. -/
def word32 (v : UInt32) : List UInt8 := littleEndian 4 v.toUInt64

namespace Rm

/-- The extension bits of the index and of the base or register. -/
def extensions : Rm → Bool × Bool
  | .reg r => (false, high r)
  | .mem m => ((m.index.map (·.ext == 1)).getD false, m.base.ext == 1)

def isMem : Rm → Bool
  | .mem _ => true
  | .reg _ => false

end Rm

/-- The byte that holds the addressing mode, a register and a register or base. -/
def modrm (mode reg rm : UInt8) : UInt8 := (mode <<< 6) ||| ((reg &&& 7) <<< 3) ||| (rm &&& 7)

/-- The byte that holds an index and a base, with the index taken once. -/
def sib (index base : UInt8) : UInt8 := ((index &&& 7) <<< 3) ||| (base &&& 7)

/-- Whether a displacement fits a signed byte. -/
def fitsByte (v : Int) : Bool := -128 ≤ v && v ≤ 127

/-- The addressing bytes of register `r` against `x`. Bases with the low bits of the stack pointer
need a second byte, and those with the low bits of the frame pointer always have a displacement. -/
def operandBytes (r : UInt8) (x : Rm) : List UInt8 :=
  match x with
  | .reg y => [modrm 3 r (low3 y)]
  | .mem m =>
    let base := m.base.low3
    let disp := m.disp.value
    let (mode, tail) : UInt8 × List UInt8 :=
      if disp = 0 ∧ base ≠ 5 then (0, [])
      else if fitsByte disp then (1, littleEndian 1 (UInt64.ofInt disp))
      else (2, littleEndian 4 (UInt64.ofInt disp))
    let address :=
      match m.index with
      | some index => [modrm mode r 4, sib index.low3 base]
      | none => if base = 4 then [modrm mode r 4, sib 4 base] else [modrm mode r base]
    address ++ tail

/-- The prefix with the operand-size bit and three extension bits. -/
def rex (w r x b : Bool) : UInt8 := 0x40 ||| bit w 3 ||| bit r 2 ||| bit x 1 ||| bit b 0

/-- The VEX prefix. Its short form serves where the index and base bits are clear and the opcode is
in map `0F`. -/
def vexBytes (f : Form) (long r x b : Bool) (v : RegNum) : List UInt8 :=
  let last := ((15 - UInt8.ofNat v.val) <<< 3) ||| bit long 2 ||| f.pre.code
  if !x && !b && !f.wide && f.map == .m0F then [0xC5, bit (!r) 7 ||| last]
  else [0xC4, bit (!r) 7 ||| bit (!x) 6 ||| bit (!b) 5 ||| f.map.code, bit f.wide 7 ||| last]

/-- An instruction on the low bits of a register, with the extension bit in front where needed. -/
def shortForm (opcode : UInt8) (r : RegNum) : List UInt8 :=
  (if high r then [rex false false false true] else []) ++ [opcode + low3 r]

namespace Insn

/-- The bytes of an instruction; `short` says that memory operands take the address-size prefix. -/
def bytes (short : Bool) : Insn → List UInt8
  | .legacy f r x imm =>
    let (xx, xb) := x.extensions
    (if short && x.isMem then [0x67] else []) ++ f.pre.bytes
      ++ (if f.wide || high r || xx || xb then [rex f.wide (high r) xx xb] else [])
      ++ f.map.bytes ++ [f.opcode] ++ operandBytes (low3 r) x ++ imm
  | .vex f long r v x imm =>
    let (xx, xb) := x.extensions
    (if short && x.isMem then [0x67] else []) ++ vexBytes f long (high r) xx xb v
      ++ [f.opcode] ++ operandBytes (low3 r) x ++ imm
  | .push r => shortForm 0x50 r
  | .pop r => shortForm 0x58 r
  | .movImm r value => shortForm 0xB8 r ++ word32 value
  | .cmpImm value => 0x3D :: word32 value
  | .jcc cc _ => [0x0F, 0x80 + cc, 0, 0, 0, 0]
  | .jmp _ => [0xE9, 0, 0, 0, 0]

/-- The label a jump refers to. -/
def target? : Insn → Option LabelRef
  | .jcc _ l | .jmp l => some l
  | _ => none

/-- Appends an instruction to a buffer. The distance of a jump is its last four bytes and is measured
from its end. -/
def append (short : Bool) (b : Buffer) (i : Insn) : Buffer :=
  let b := b.emit (i.bytes short)
  match i.target? with
  | some l => b.fix ⟨.rel32, (b.size : Int) - 4, b.size, l⟩
  | none => b

end Insn

end LaneAsm.X86
