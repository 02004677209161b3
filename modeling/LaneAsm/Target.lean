import LaneAsm.Instances

/-!
Target configurations: what an encoder needs to know of the machine it encodes for.
-/
namespace LaneAsm

/-- An instruction set. `other` stands for those without an encoder. -/
inductive Isa where
  | x86
  | mips32
  | mips64
  | other (name : String)
deriving Repr, DecidableEq, Inhabited

namespace Isa

def text : Isa → String
  | .x86 => "x86_64"
  | .mips32 => "mips32"
  | .mips64 => "mips64"
  | .other name => name

def ofText (s : String) : Isa :=
  match s with
  | "x86_64" => .x86
  | "mips32" => .mips32
  | "mips64" => .mips64
  | name => .other name

def isMips : Isa → Bool
  | .mips32 | .mips64 => true
  | _ => false

end Isa

/-- The extension levels of an instruction set, as numbers that grow with the extensions. -/
abbrev Level := Nat

namespace Level

def sse2 : Level := 1
def sse4 : Level := 2
def avx1 : Level := 3
def avx2 : Level := 4

/-- The only level of MIPS targets. -/
def msa : Level := 1

end Level

/-- A target configuration. A logical vector register is held in `halves` physical registers of
`physBytes` bytes each; the scratch area lies at `scratchOffset` from a base register. -/
structure Config where
  name : String
  isa : Isa
  level : Level
  levelName : String
  /-- Bytes of a physical vector register. -/
  physBytes : Nat
  /-- Physical registers for each logical one. -/
  halves : Nat
  /-- The physical register that holds a half of a logical one. -/
  physical : Int → Nat → Int
  /-- Number of usable logical vector registers. -/
  vectorRegs : Nat
  /-- The logical vector register kept for derived operations. -/
  tempReg : Int
  baseBits : Nat
  addressBits : Nat
  /-- Bits of a pointer. -/
  pointer : Nat
  /-- Whether memory operands need the address-size prefix. -/
  shortAddress : Bool
  scratchBase : Int
  scratchOffset : Int
  scratchSize : Nat
  /-- Number of 32-bit lanes of a logical vector register. -/
  lanes32 : Nat
  /-- Whether this host can run the target's code. -/
  hostRuns : Bool
  /-- What is wrong with the configuration, if anything is. -/
  invalid : Option String
deriving Inhabited

end LaneAsm
