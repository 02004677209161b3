import LaneAsm.Text.Hex

/-!
Operands of portable instructions: registers, memory references, displacements and immediates,
with their texts.
-/
namespace LaneAsm

/-- The two register files. -/
inductive RegClass where
  | vector
  | base
deriving Repr, DecidableEq, Inhabited

/-- A register. The index of a vector register is logical in a portable instruction and physical
in a primitive; nothing keeps it inside the register file before a check does. -/
structure Reg where
  kind : RegClass
  index : Int
deriving Repr, DecidableEq, Inhabited

namespace Reg

/-- The vector register with index `i`. -/
def xmm (i : Int) : Reg := ⟨.vector, i⟩

/-- The base register with index `i`. -/
def base (i : Int) : Reg := ⟨.base, i⟩

/-- The stack pointer, which no memory operand may use as its index. -/
def stack : Reg := base 4

/-- The register that selects the lanes of a masked move. -/
def mask : Reg := xmm 0

/-- The names of the base registers. -/
def baseNames : List String :=
  ["Reax", "Recx", "Redx", "Rebx", "Resp", "Rebp", "Resi", "Redi",
    "Reg08", "Reg09", "Reg10", "Reg11", "Reg12", "Reg13", "Reg14", "Reg15"]

/-- The name of a register; an index outside the register file is written in decimal. -/
def text (r : Reg) : String :=
  match r.kind with
  | .base =>
    match baseNames[r.index.toNat]?, decide (0 ≤ r.index) with
    | some name, true => name
    | _, _ => "R" ++ toString r.index
  | .vector =>
    if 0 ≤ r.index ∧ r.index < 10 then "Xmm" ++ toString r.index
    else if 10 ≤ r.index ∧ r.index < 16 then
      "Xmm" ++ String.singleton (Char.ofNat (55 + r.index.toNat))
    else "X" ++ toString r.index

end Reg

/-- The windows of displacements. `other` stands for the class numbers without a window. -/
inductive DispClass where
  | dp
  | de
  | df
  | dg
  | dh
  | dv
  | other (code : UInt8)
deriving Repr, DecidableEq, Inhabited

namespace DispClass

/-- The classes with a window, in the order of their numbers. -/
def named : List DispClass := [.dp, .de, .df, .dg, .dh, .dv]

/-- The class of a number. -/
def ofCode (code : UInt8) : DispClass := (named[code.toNat]?).getD (.other code)

/-- The bits that a displacement of the class may have. -/
def mask? : DispClass → Option UInt64
  | .dp => some 0xFFC
  | .de => some 0x1FFC
  | .df => some 0x3FFC
  | .dg => some 0x7FFC
  | .dh => some 0xFFFC
  | .dv => some 0x7FFFFFFC
  | .other _ => none

/-- The name of a class; for a number without a class, what stands in its place in a text. -/
def text : DispClass → String
  | .dp => "DP"
  | .de => "DE"
  | .df => "DF"
  | .dg => "DG"
  | .dh => "DH"
  | .dv => "DV"
  | .other code =>
    "%!s(PANIC=String method: runtime error: index out of range [" ++ toString code.toNat
      ++ "] with length 6)"

end DispClass

/-- A displacement: a value of 64 bits and the window it was written for. -/
structure Disp where
  value : Int
  kind : DispClass
deriving Repr, DecidableEq, Inhabited

def Disp.text (d : Disp) : String := d.kind.text ++ "(" ++ Text.hex d.value ++ ")"

/-- The windows of immediates. `other` stands for the class numbers without a window. -/
inductive ImmClass where
  | ic
  | ib
  | im
  | ig
  | ih
  | iv
  | iw
  | other (code : UInt8)
deriving Repr, DecidableEq, Inhabited

namespace ImmClass

/-- The classes with a window, in the order of their numbers. -/
def named : List ImmClass := [.ic, .ib, .im, .ig, .ih, .iv, .iw]

/-- The class of a number. -/
def ofCode (code : UInt8) : ImmClass := (named[code.toNat]?).getD (.other code)

/-- The bits that an immediate of the class may have. -/
def mask? : ImmClass → Option UInt64
  | .ic => some 0x7F
  | .ib => some 0xFF
  | .im => some 0xFFF
  | .ig => some 0x7FFF
  | .ih => some 0xFFFF
  | .iv => some 0x7FFFFFFF
  | .iw => some 0xFFFFFFFF
  | .other _ => none

/-- The name of a class; for a number without a class, what stands in its place in a text. -/
def text : ImmClass → String
  | .ic => "IC"
  | .ib => "IB"
  | .im => "IM"
  | .ig => "IG"
  | .ih => "IH"
  | .iv => "IV"
  | .iw => "IW"
  | .other code =>
    "%!s(PANIC=String method: runtime error: index out of range [" ++ toString code.toNat
      ++ "] with length 7)"

end ImmClass

/-- An immediate: a value of 64 bits and the window it was written for. -/
structure Imm where
  value : Int
  kind : ImmClass
deriving Repr, DecidableEq, Inhabited

namespace Imm

def text (i : Imm) : String := i.kind.text ++ "(" ++ Text.hex i.value ++ ")"

/-- The value that a base instruction works with: the widest class holds patterns of 32 bits,
which are sign-extended. -/
def signed (i : Imm) : Int :=
  match i.kind with
  | .iw => i.value.bmod (2 ^ 32)
  | _ => i.value

end Imm

/-- A memory reference: a base register, perhaps an index register, and a displacement. -/
structure Mem where
  base : Reg
  index : Option Reg
  disp : Disp
deriving Repr, DecidableEq, Inhabited

namespace Mem

/-- The reference `[base + disp]`. -/
def plain (base : Reg) (disp : Disp) : Mem := ⟨base, none, disp⟩

/-- The reference `[base + index + disp]`. -/
def indexed (base index : Reg) (disp : Disp) : Mem := ⟨base, some index, disp⟩

def text (m : Mem) : String :=
  match m.index with
  | some index => "[" ++ m.base.text ++ "+" ++ index.text ++ ", " ++ m.disp.text ++ "]"
  | none => "[" ++ m.base.text ++ ", " ++ m.disp.text ++ "]"

end Mem

/-- An operand of an instruction. -/
inductive Operand where
  | reg (r : Reg)
  | mem (m : Mem)
  | imm (i : Imm)
deriving Repr, DecidableEq, Inhabited

def Operand.text : Operand → String
  | .reg r => r.text
  | .mem m => m.text
  | .imm i => i.text

instance : Coe Reg Operand := ⟨.reg⟩
instance : Coe Mem Operand := ⟨.mem⟩
instance : Coe Imm Operand := ⟨.imm⟩

end LaneAsm
