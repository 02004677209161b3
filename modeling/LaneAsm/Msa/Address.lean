import LaneAsm.Emission
import LaneAsm.Msa.Insn
import LaneAsm.Target

/-!
Addresses: a memory operand becomes a register and an offset that fits the access, through the
registers kept for it where the operand is indexed or its displacement is too far.
-/
namespace LaneAsm.Msa

/-- Items selected for a primitive. -/
abbrev Selection := Emission Item

/-- Appends one instruction. -/
def put (i : Insn) : Selection Unit := .emit (.insn i)

/-- The register that is always zero. -/
def rZero : Num := 0

/-- The register for indexed addresses and for the outcome of comparisons. -/
def rAt : Num := 1

/-- The register for displacements that do not fit. -/
def rT8 : Num := 24

/-- The register for immediates and memory operands. -/
def rT9 : Num := 25

/-- The general registers that hold the base registers, the stack pointer in the fifth place. -/
def baseFile : List Num := [2, 3, 4, 5, 29, 7, 8, 9, 10, 11, 12, 13, 14, 15, 16, 17]

/-- The general register of a base register. -/
def general? (i : Int) : Option Num := if 0 ≤ i then baseFile[i.toNat]? else none

/-- Looks up a register that nothing has checked before. -/
def general (r : Reg) : Selection Num :=
  match general? r.index with
  | some n => pure n
  | none => .trap

/-- Whether a value fits a signed immediate. -/
def fitsShort (v : Int) : Bool := -2 ^ 15 ≤ v && v < 2 ^ 15

/-- Whether a displacement fits a vector access, which counts words. -/
def fitsVector (v : Int) : Bool := v % 4 == 0 && -512 ≤ v / 4 && v / 4 ≤ 511

/-- Adds two registers as pointers. -/
def addPointers (cfg : Config) (rd rs rt : Num) : Insn :=
  .special (if cfg.pointer = 64 then .daddu else .addu) rd rs rt 0

/-- Sets a register to a sign-extended value of 32 bits. -/
def loadImmediate (r : Num) (v : Int) : List Insn :=
  let v := v.bmod (2 ^ 32)
  if fitsShort v then [.imm .addiu r rZero (UInt16.ofInt v)]
  else
    let low := UInt16.ofInt v
    .imm .lui r rZero (UInt16.ofInt (v / 2 ^ 16)) :: if low = 0 then [] else [.imm .ori r r low]

/-- Reduces a memory operand to a register and a displacement that `fits` accepts. -/
def resolve (cfg : Config) (fits : Int → Bool) (m : Mem) : Selection (Num × Int) := do
  let base ← general m.base
  let base ← match m.index with
    | none => pure base
    | some index => do
      let index ← general index
      put (addPointers cfg rAt base index)
      pure rAt
  let disp := m.disp.value
  if fits disp then return (base, disp)
  if fitsShort disp then
    put (.imm (if cfg.pointer = 64 then .daddiu else .addiu) rT8 base (UInt16.ofInt disp))
    return (rT8, 0)
  .emitAll ((loadImmediate rT8 disp).map .insn)
  put (addPointers cfg rT8 rT8 base)
  return (rT8, 0)

/-- Loads or stores a vector register. -/
def accessVector (cfg : Config) (store : Bool) (w : Num) (m : Mem) : Selection Unit := do
  let (rs, disp) ← resolve cfg fitsVector m
  put (.access store .w w rs (disp / 4))

/-- Loads or stores a general register. -/
def accessGeneral (cfg : Config) (op : ImmOp) (rt : Num) (m : Mem) : Selection Unit := do
  let (rs, disp) ← resolve cfg fitsShort m
  put (.imm op rt rs (UInt16.ofInt disp))

end LaneAsm.Msa
