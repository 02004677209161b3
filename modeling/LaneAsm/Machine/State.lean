import LaneAsm.Error
import LaneAsm.Lane.Vector
import LaneAsm.Target

/-!
The state of the reference machine: vector registers, base registers and a memory. Registers of
either file go by their index alone; an index outside the file traps.
-/
namespace LaneAsm

/-- The state of the reference machine. -/
structure Machine where
  vectors : Vector Bytes 32
  bases : Vector UInt64 32
  memory : Bytes
deriving Repr, DecidableEq

namespace Machine

/-- The machine of a target with a memory and every register at zero. -/
def init (cfg : Config) (memory : Bytes) : Machine :=
  ⟨.replicate 32 (Bytes.zeros cfg.physBytes), .replicate 32 0, memory⟩

/-- The place of a register in its file. -/
def index (r : Reg) : Except Fault (Fin 32) :=
  if h : 0 ≤ r.index ∧ r.index < 32 then .ok ⟨r.index.toNat, by omega⟩ else .error .trap

def vector (m : Machine) (r : Reg) : Except Fault Bytes := do
  return m.vectors.get (← index r)

def setVector (m : Machine) (r : Reg) (v : Bytes) : Except Fault Machine := do
  let i ← index r
  return { m with vectors := m.vectors.set i v }

def base (m : Machine) (r : Reg) : Except Fault UInt64 := do
  return m.bases.get (← index r)

def setBase (m : Machine) (r : Reg) (x : UInt64) : Except Fault Machine := do
  let i ← index r
  return { m with bases := m.bases.set i x }

/-- The bits of a base register that an instruction sees. -/
def baseMask (cfg : Config) : UInt64 :=
  if cfg.baseBits = 32 then 0xFFFFFFFF else 0xFFFFFFFFFFFFFFFF

/-- The element type of base values in memory. -/
def baseElem (cfg : Config) : Elem := ⟨cfg.baseBits, .unsigned⟩

/-- The address of a memory operand. -/
def address (cfg : Config) (m : Machine) (x : Mem) : Except Fault UInt64 := do
  let a := (← m.base x.base) + UInt64.ofInt x.disp.value
  let i ← match x.index with
    | some i => m.base i
    | none => pure 0
  return if cfg.addressBits = 32 then (a + i) &&& 0xFFFFFFFF else a + i

/-- The offset in memory of an access of some bytes. The end of the access is computed in 64 bits; an
access that passes the bounds only because its end wraps around traps. -/
def locate (cfg : Config) (m : Machine) (x : Mem) (size : Nat) : Except Fault Nat := do
  let a ← m.address cfg x
  if UInt64.ofNat m.memory.size < a + UInt64.ofNat size then
    Fault.fail (.memoryBounds a size)
  else if m.memory.size < a.toNat + size then .error .trap
  else return a.toNat

/-- Reads bytes from memory. -/
def load (cfg : Config) (m : Machine) (x : Mem) (size : Nat) : Except Fault Bytes := do
  let a ← m.locate cfg x size
  return m.memory.extract a (a + size)

/-- Writes bytes to memory. -/
def store (cfg : Config) (m : Machine) (x : Mem) (v : Bytes) : Except Fault Machine := do
  let a ← m.locate cfg x v.size
  return { m with memory := m.memory.write a v.toList }

/-- A result that an access outside a vector may lack. -/
def orTrap {α : Type} : Option α → Except Fault α
  | some a => .ok a
  | none => .error .trap

/-- The value of a vector operand: a register, or as many bytes of memory. -/
def vectorOf (cfg : Config) (m : Machine) (o : Operand) : Except Fault Bytes :=
  match o with
  | .reg r => m.vector r
  | .mem x => m.load cfg x cfg.physBytes
  | .imm i => Fault.fail (.operandKind (.operand (.imm i)))

/-- The value of a base operand. -/
def baseOf (cfg : Config) (m : Machine) (o : Operand) : Except Fault UInt64 :=
  match o with
  | .reg r => do return (← m.base r) &&& baseMask cfg
  | .imm i => return UInt64.ofInt i.signed &&& baseMask cfg
  | .mem x => do
    let raw ← m.load cfg x (cfg.baseBits / 8)
    orTrap (raw.lane? (baseElem cfg) 0)

end Machine

end LaneAsm
