import LaneAsm.Buffer

/-!
Machine instructions of MIPS with the MSA vector unit, and the words that encode them. A word is a
natural number put together from its fields, each at its own place.
-/
namespace LaneAsm.Msa

/-- A register number, of either register file. -/
abbrev Num := Fin 32

instance neZeroNum : @NeZero Nat .ofOfNat0 32 := ⟨by decide⟩

/-- The data format of a vector instruction. -/
inductive Format where
  | b
  | h
  | w
  | d
deriving Repr, DecidableEq, Inhabited

namespace Format

def all : List Format := [.b, .h, .w, .d]

def code : Format → Nat
  | .b => 0
  | .h => 1
  | .w => 2
  | .d => 3

def letter : Format → String
  | .b => "b"
  | .h => "h"
  | .w => "w"
  | .d => "d"

/-- The format of lanes of some width; unusual widths count as the widest. -/
def ofBits (bits : Nat) : Format :=
  if bits = 8 then .b else if bits = 16 then .h else if bits = 32 then .w else .d

end Format

/-- Integer operations on three vector registers. `blank` is the operation with every bit clear. -/
inductive Three where
  | blank
  | sll
  | sra
  | srl
  | addv
  | subv
  | maxS
  | maxU
  | minS
  | minU
  | ceq
  | cltS
  | cltU
  | cleS
  | cleU
  | addsS
  | addsU
  | subsS
  | subsU
  | mulv
deriving Repr, DecidableEq, Inhabited

namespace Three

/-- The operations with a name. -/
def named : List Three :=
  [.sll, .sra, .srl, .addv, .subv, .maxS, .maxU, .minS, .minU, .ceq, .cltS, .cltU, .cleS, .cleU,
    .addsS, .addsU, .subsS, .subsU, .mulv]

/-- The minor opcode and the operation within it. -/
def code : Three → Nat × Nat
  | .blank => (0, 0)
  | .sll => (0x0D, 0)
  | .sra => (0x0D, 1)
  | .srl => (0x0D, 2)
  | .addv => (0x0E, 0)
  | .subv => (0x0E, 1)
  | .maxS => (0x0E, 2)
  | .maxU => (0x0E, 3)
  | .minS => (0x0E, 4)
  | .minU => (0x0E, 5)
  | .ceq => (0x0F, 0)
  | .cltS => (0x0F, 2)
  | .cltU => (0x0F, 3)
  | .cleS => (0x0F, 4)
  | .cleU => (0x0F, 5)
  | .addsS => (0x10, 2)
  | .addsU => (0x10, 3)
  | .subsS => (0x11, 0)
  | .subsU => (0x11, 1)
  | .mulv => (0x12, 0)

def name : Three → String
  | .blank => ""
  | .sll => "sll"
  | .sra => "sra"
  | .srl => "srl"
  | .addv => "addv"
  | .subv => "subv"
  | .maxS => "max_s"
  | .maxU => "max_u"
  | .minS => "min_s"
  | .minU => "min_u"
  | .ceq => "ceq"
  | .cltS => "clt_s"
  | .cltU => "clt_u"
  | .cleS => "cle_s"
  | .cleU => "cle_u"
  | .addsS => "adds_s"
  | .addsU => "adds_u"
  | .subsS => "subs_s"
  | .subsU => "subs_u"
  | .mulv => "mulv"

end Three

/-- Float operations on three vector registers. -/
inductive Float3 where
  | fadd
  | fsub
  | fmul
  | fdiv
  | fmin
  | fmax
  | fceq
  | fclt
  | fcle
  | fcune
deriving Repr, DecidableEq, Inhabited

namespace Float3

def all : List Float3 := [.fadd, .fsub, .fmul, .fdiv, .fmin, .fmax, .fceq, .fclt, .fcle, .fcune]

/-- The minor opcode and the operation within it. -/
def code : Float3 → Nat × Nat
  | .fadd => (0x1B, 0x0)
  | .fsub => (0x1B, 0x1)
  | .fmul => (0x1B, 0x2)
  | .fdiv => (0x1B, 0x3)
  | .fmin => (0x1B, 0xC)
  | .fmax => (0x1B, 0xE)
  | .fceq => (0x1A, 0x2)
  | .fclt => (0x1A, 0x4)
  | .fcle => (0x1A, 0x6)
  | .fcune => (0x1C, 0x2)

def name : Float3 → String
  | .fadd => "fadd"
  | .fsub => "fsub"
  | .fmul => "fmul"
  | .fdiv => "fdiv"
  | .fmin => "fmin"
  | .fmax => "fmax"
  | .fceq => "fceq"
  | .fclt => "fclt"
  | .fcle => "fcle"
  | .fcune => "fcune"

end Float3

/-- Operations on the bits of three vector registers; `bmnz` moves where mask bits are set. -/
inductive VecOp where
  | and
  | or
  | nor
  | xor
  | bmnz
deriving Repr, DecidableEq, Inhabited

namespace VecOp

def all : List VecOp := [.and, .or, .nor, .xor, .bmnz]

def code : VecOp → Nat
  | .and => 0
  | .or => 1
  | .nor => 2
  | .xor => 3
  | .bmnz => 4

def name : VecOp → String
  | .and => "and.v"
  | .or => "or.v"
  | .nor => "nor.v"
  | .xor => "xor.v"
  | .bmnz => "bmnz.v"

end VecOp

/-- Vector shifts by an immediate. -/
inductive BitOp where
  | slli
  | srai
  | srli
deriving Repr, DecidableEq, Inhabited

namespace BitOp

def all : List BitOp := [.slli, .srai, .srli]

def code : BitOp → Nat
  | .slli => 0
  | .srai => 1
  | .srli => 2

def name : BitOp → String
  | .slli => "slli"
  | .srai => "srai"
  | .srli => "srli"

end BitOp

/-- Branches on a vector register. -/
inductive BranchOp where
  | bzV
  | bnzV
  | bzB
  | bnzB
deriving Repr, DecidableEq, Inhabited

namespace BranchOp

def all : List BranchOp := [.bzV, .bnzV, .bzB, .bnzB]

def code : BranchOp → Nat
  | .bzV => 0x0B
  | .bnzV => 0x0F
  | .bzB => 0x18
  | .bnzB => 0x1C

def name : BranchOp → String
  | .bzV => "bz.v"
  | .bnzV => "bnz.v"
  | .bzB => "bz.b"
  | .bnzB => "bnz.b"

end BranchOp

/-- General operations on registers. -/
inductive Special where
  | sll
  | srl
  | sra
  | addu
  | subu
  | and
  | or
  | xor
  | slt
  | sltu
  | daddu
  | dsubu
  | dsll
  | dsrl
  | dsra
  | dsll32
  | dsrl32
  | dsra32
deriving Repr, DecidableEq, Inhabited

namespace Special

def all : List Special :=
  [.sll, .srl, .sra, .addu, .subu, .and, .or, .xor, .slt, .sltu, .daddu, .dsubu, .dsll, .dsrl,
    .dsra, .dsll32, .dsrl32, .dsra32]

def code : Special → Nat
  | .sll => 0x00
  | .srl => 0x02
  | .sra => 0x03
  | .addu => 0x21
  | .subu => 0x23
  | .and => 0x24
  | .or => 0x25
  | .xor => 0x26
  | .slt => 0x2A
  | .sltu => 0x2B
  | .daddu => 0x2D
  | .dsubu => 0x2F
  | .dsll => 0x38
  | .dsrl => 0x3A
  | .dsra => 0x3B
  | .dsll32 => 0x3C
  | .dsrl32 => 0x3E
  | .dsra32 => 0x3F

def name : Special → String
  | .sll => "sll"
  | .srl => "srl"
  | .sra => "sra"
  | .addu => "addu"
  | .subu => "subu"
  | .and => "and"
  | .or => "or"
  | .xor => "xor"
  | .slt => "slt"
  | .sltu => "sltu"
  | .daddu => "daddu"
  | .dsubu => "dsubu"
  | .dsll => "dsll"
  | .dsrl => "dsrl"
  | .dsra => "dsra"
  | .dsll32 => "dsll32"
  | .dsrl32 => "dsrl32"
  | .dsra32 => "dsra32"

/-- Whether the operation is a shift by a count in the word. -/
def isShift : Special → Bool
  | .sll | .srl | .sra | .dsll | .dsrl | .dsra | .dsll32 | .dsrl32 | .dsra32 => true
  | _ => false

end Special

/-- General operations with an immediate of sixteen bits. -/
inductive ImmOp where
  | beq
  | bne
  | addiu
  | andi
  | ori
  | xori
  | lui
  | daddiu
  | lw
  | sw
  | ld
  | sd
deriving Repr, DecidableEq, Inhabited

namespace ImmOp

def all : List ImmOp :=
  [.beq, .bne, .addiu, .andi, .ori, .xori, .lui, .daddiu, .lw, .sw, .ld, .sd]

def code : ImmOp → Nat
  | .beq => 0x04
  | .bne => 0x05
  | .addiu => 0x09
  | .andi => 0x0C
  | .ori => 0x0D
  | .xori => 0x0E
  | .lui => 0x0F
  | .daddiu => 0x19
  | .lw => 0x23
  | .sw => 0x2B
  | .ld => 0x37
  | .sd => 0x3F

def name : ImmOp → String
  | .beq => "beq"
  | .bne => "bne"
  | .addiu => "addiu"
  | .andi => "andi"
  | .ori => "ori"
  | .xori => "xori"
  | .lui => "lui"
  | .daddiu => "daddiu"
  | .lw => "lw"
  | .sw => "sw"
  | .ld => "ld"
  | .sd => "sd"

end ImmOp

/-- A machine instruction. -/
inductive Insn where
  | nop
  | three (op : Three) (df : Format) (wd ws wt : Num)
  /-- A float operation, in double precision or in single. -/
  | float (op : Float3) (double : Bool) (wd ws wt : Num)
  | vec (op : VecOp) (wd ws wt : Num)
  | bit (op : BitOp) (df : Format) (count : Nat) (wd ws : Num)
  /-- Spreads an element over a vector; `element` holds the format and the number of the element. -/
  | splat (element : Nat) (wd ws : Num)
  | move (wd ws : Num)
  /-- Loads or stores a vector; the offset counts elements. -/
  | access (store : Bool) (df : Format) (wd rs : Num) (offset : Int)
  | branch (op : BranchOp) (wt : Num) (offset : UInt16)
  | special (op : Special) (rd rs rt : Num) (count : Nat)
  | imm (op : ImmOp) (rt rs : Num) (value : UInt16)
deriving Repr, DecidableEq, Inhabited

/-- The field that holds the format and the count of a vector shift. -/
def shiftField : Format → Nat → Nat
  | .b, n => 0x70 + n % 8
  | .h, n => 0x60 + n % 16
  | .w, n => 0x40 + n % 32
  | .d, n => n % 64

/-- The field that holds a format and the first element. -/
def firstElement : Format → Nat
  | .b => 0x00
  | .h => 0x20
  | .w => 0x30
  | .d => 0x38

/-- The major opcode of vector instructions and that of vector branches. -/
def vectorMajor : Nat := 0x1E * 2 ^ 26
def branchMajor : Nat := 0x11 * 2 ^ 26

/-- The word of an instruction. -/
def Insn.word : Insn → Nat
  | .nop => 0
  | .three op df wd ws wt =>
    vectorMajor + op.code.2 * 2 ^ 23 + df.code * 2 ^ 21 + wt.val * 2 ^ 16 + ws.val * 2 ^ 11
      + wd.val * 2 ^ 6 + op.code.1
  | .float op double wd ws wt =>
    vectorMajor + op.code.2 * 2 ^ 22 + (if double then 1 else 0) * 2 ^ 21 + wt.val * 2 ^ 16
      + ws.val * 2 ^ 11 + wd.val * 2 ^ 6 + op.code.1
  | .vec op wd ws wt =>
    vectorMajor + op.code * 2 ^ 21 + wt.val * 2 ^ 16 + ws.val * 2 ^ 11 + wd.val * 2 ^ 6 + 0x1E
  | .bit op df count wd ws =>
    vectorMajor + op.code * 2 ^ 23 + shiftField df count * 2 ^ 16 + ws.val * 2 ^ 11
      + wd.val * 2 ^ 6 + 0x09
  | .splat element wd ws =>
    vectorMajor + 2 ^ 22 + element % 64 * 2 ^ 16 + ws.val * 2 ^ 11 + wd.val * 2 ^ 6 + 0x19
  | .move wd ws => vectorMajor + 0xBE * 2 ^ 16 + ws.val * 2 ^ 11 + wd.val * 2 ^ 6 + 0x19
  | .access store df wd rs offset =>
    vectorMajor + (offset % 1024).toNat * 2 ^ 16 + rs.val * 2 ^ 11 + wd.val * 2 ^ 6
      + (if store then 0x9 else 0x8) * 2 ^ 2 + df.code
  | .branch op wt offset => branchMajor + op.code * 2 ^ 21 + wt.val * 2 ^ 16 + offset.toNat
  | .special op rd rs rt count =>
    rs.val * 2 ^ 21 + rt.val * 2 ^ 16 + rd.val * 2 ^ 11 + count % 32 * 2 ^ 6 + op.code
  | .imm op rt rs value => op.code * 2 ^ 26 + rs.val * 2 ^ 21 + rt.val * 2 ^ 16 + value.toNat

/-- What is appended to a buffer: an instruction, or a branch to a label with the slot after it. -/
inductive Item where
  | insn (i : Insn)
  | jump (i : Insn) (target : LabelRef)
deriving Repr, DecidableEq

/-- Appends an item to a buffer. The distance of a branch is measured from its delay slot, which
does nothing. -/
def Item.append (b : Buffer) : Item → Buffer
  | .insn i => b.emitWord 4 (UInt64.ofNat i.word)
  | .jump i target =>
    let site : Int := b.size
    ((b.emitWord 4 (UInt64.ofNat i.word)).fix ⟨.mips16, site, site + 4, target⟩).emitWord 4
      (UInt64.ofNat Insn.nop.word)

end LaneAsm.Msa
