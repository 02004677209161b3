import LaneAsm.Operand.Basic

/-!
The normal form of operands: a value, a tag and a fragment.
-/
namespace LaneAsm

/-- What kind of operand a triplet stands for. -/
inductive Tag where
  | vector
  | base
  | plain
  | disp
  | indexed
  | imm
deriving Repr, DecidableEq, Inhabited

namespace Tag

def text : Tag → String
  | .vector => "vector"
  | .base => "base"
  | .plain => "plain"
  | .disp => "disp"
  | .indexed => "indexed"
  | .imm => "imm"

/-- The tags in the order of their numbers, which start at one. -/
def all : List Tag := [.vector, .base, .plain, .disp, .indexed, .imm]

/-- The text of the tag with a number. -/
def textOfCode (code : UInt8) : String :=
  match (none :: all.map some)[code.toNat]? with
  | some (some tag) => tag.text
  | _ => "tag(" ++ toString code.toNat ++ ")"

end Tag

/-- An operand in normal form. -/
structure Triplet where
  value : Int
  tag : Tag
  fragment : UInt32
deriving Repr, DecidableEq, Inhabited

/-- The low three bits of a register's index. -/
def Reg.low3 (r : Reg) : UInt8 := UInt8.ofNat (r.index % 8).toNat

/-- The fourth bit of a register's index, which an encoding holds apart from the low three. -/
def Reg.ext (r : Reg) : UInt8 := UInt8.ofNat (r.index / 8 % 2).toNat

/-- The fragment of a register is its index cut to five bits. -/
def Reg.triplet (r : Reg) : Triplet :=
  ⟨r.index, match r.kind with | .base => .base | .vector => .vector,
    UInt32.ofNat (r.index % 32).toNat⟩

/-- The fragment of an indexed reference is one more than the index of its index register. -/
def Mem.triplet (m : Mem) : Triplet :=
  match m.index with
  | some index => ⟨m.base.index, .indexed, UInt32.ofNat ((index.index + 1) % 2 ^ 32).toNat⟩
  | none => ⟨m.base.index, if m.disp.value = 0 then .plain else .disp, 0⟩

/-- The fragment of an immediate is the part of its value inside its window; a class without a
window has no triplet. -/
def Imm.triplet? (i : Imm) : Option Triplet :=
  i.kind.mask?.map fun mask => ⟨i.value, .imm, (UInt64.ofInt i.value &&& mask).toUInt32⟩

def Operand.triplet? : Operand → Option Triplet
  | .reg r => some r.triplet
  | .mem m => some m.triplet
  | .imm i => i.triplet?

end LaneAsm
