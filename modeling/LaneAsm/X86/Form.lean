import LaneAsm.Op
import LaneAsm.Plan.Basic
import LaneAsm.Target

/-!
Opcode forms: the mandatory prefix, the opcode map, the opcode byte and the operand-size bit of an
instruction, and the forms that encode portable operations.
-/
namespace LaneAsm.X86

/-- The mandatory prefix of a form. -/
inductive Mandatory where
  | none
  | p66
  | pF3
  | pF2
deriving Repr, DecidableEq, Inhabited

namespace Mandatory

/-- The number of a prefix in a VEX prefix. -/
def code : Mandatory → UInt8
  | .none => 0
  | .p66 => 1
  | .pF3 => 2
  | .pF2 => 3

/-- The byte of a prefix outside VEX. -/
def bytes : Mandatory → List UInt8
  | .none => []
  | .p66 => [0x66]
  | .pF3 => [0xF3]
  | .pF2 => [0xF2]

end Mandatory

/-- The opcode map of a form. -/
inductive OpcodeMap where
  /-- Opcodes of one byte. -/
  | one
  | m0F
  | m0F38
  | m0F3A
deriving Repr, DecidableEq, Inhabited

namespace OpcodeMap

/-- The number of a map in a VEX prefix. -/
def code : OpcodeMap → UInt8
  | .one => 0
  | .m0F => 1
  | .m0F38 => 2
  | .m0F3A => 3

/-- The escape bytes of a map outside VEX. -/
def bytes : OpcodeMap → List UInt8
  | .one => []
  | .m0F => [0x0F]
  | .m0F38 => [0x0F, 0x38]
  | .m0F3A => [0x0F, 0x3A]

end OpcodeMap

/-- An opcode form. -/
structure Form where
  pre : Mandatory
  map : OpcodeMap
  opcode : UInt8
  wide : Bool
deriving Repr, DecidableEq, Inhabited

namespace Form

/-- A form with an opcode of one byte. -/
def one (opcode : UInt8) (wide : Bool) : Form := ⟨.none, .one, opcode, wide⟩

/-- A form in map `0F` with no prefix. -/
def m0F (opcode : UInt8) : Form := ⟨.none, .m0F, opcode, false⟩

/-- A form in map `0F` with prefix `66`. -/
def p66 (opcode : UInt8) : Form := ⟨.p66, .m0F, opcode, false⟩

/-- A form in map `0F38` with prefix `66`. -/
def p6638 (opcode : UInt8) : Form := ⟨.p66, .m0F38, opcode, false⟩

/-- The form with the operand-size bit as given. -/
def sized (f : Form) (wide : Bool) : Form := { f with wide }

/-- The form with every field at its first value. -/
def blank : Form := ⟨.none, .one, 0, false⟩

def movaps : Form := m0F 0x28
def movupsLoad : Form := m0F 0x10
def movupsStore : Form := m0F 0x11
def andps : Form := m0F 0x54
def andnps : Form := m0F 0x55
def orps : Form := m0F 0x56
def xorps : Form := m0F 0x57
def cmpps : Form := m0F 0xC2
def pand : Form := p66 0xDB
def por : Form := p66 0xEB
def pcmpeqd : Form := p66 0x76
def pmovmskb : Form := p66 0xD7
def movd : Form := p66 0x6E
def pblendvb : Form := p6638 0x10
def vpblendvb : Form := ⟨.p66, .m0F3A, 0x4C, false⟩
def vextractf128 : Form := ⟨.p66, .m0F3A, 0x19, false⟩

/-- The group of shifts by an immediate for a lane width. -/
def shiftGroup (bits : Nat) : Form :=
  p66 (if bits = 16 then 0x71 else if bits = 32 then 0x72 else 0x73)

end Form

/-- The form of a lane width, where zero stands for no form. -/
def formByBits (e : Elem) (b8 b16 b32 b64 : UInt8) : Option (Form × Level) :=
  let opcode :=
    if e.bits = 8 then b8 else if e.bits = 16 then b16
    else if e.bits = 32 then b32 else if e.bits = 64 then b64 else 0
  if opcode = 0 then none else some (.p66 opcode, Level.sse2)

/-- The form of a float operation. -/
def floatForm? (op : Op) (e : Elem) : Option (Form × Level) :=
  let opcode : Option UInt8 := match op with
    | .add => some 0x58
    | .mul => some 0x59
    | .sub => some 0x5C
    | .min => some 0x5D
    | .div => some 0x5E
    | .max => some 0x5F
    | .ceq | .cne | .clt | .cle => some 0xC2
    | _ => none
  opcode.map fun o => (⟨if e.bits = 64 then .p66 else .none, .m0F, o, false⟩, Level.sse2)

/-- The form of a minimum or maximum: unsigned bytes and signed words come first, the other widths
up to 32 bits later. -/
def minMaxForm? (op : Op) (e : Elem) : Option (Form × Level) :=
  let pick (least greatest : UInt8) : UInt8 := if op = .max then greatest else least
  match e.bits, e.isSigned with
  | 8, false => some (.p66 (pick 0xDA 0xDE), Level.sse2)
  | 16, true => some (.p66 (pick 0xEA 0xEE), Level.sse2)
  | 8, true => some (.p6638 (pick 0x38 0x3C), Level.sse4)
  | 16, false => some (.p6638 (pick 0x3A 0x3E), Level.sse4)
  | 32, true => some (.p6638 (pick 0x39 0x3D), Level.sse4)
  | 32, false => some (.p6638 (pick 0x3B 0x3F), Level.sse4)
  | _, _ => none

/-- The form of a shift with a count for each lane. There is none below 32 bits, and none for the
signed shift at 64 bits. -/
def shiftEachForm? (op : Op) (e : Elem) : Option (Form × Level) :=
  if e.bits ≠ 32 ∧ e.bits ≠ 64 then none
  else
    let wide := e.bits == 64
    if op = .svl then some ((Form.p6638 0x47).sized wide, Level.avx2)
    else if !e.isSigned then some ((Form.p6638 0x45).sized wide, Level.avx2)
    else if !wide then some (.p6638 0x46, Level.avx2)
    else none

/-- The form that encodes an operation, and the lowest level that has it at sixteen bytes. Shifts
by one count give the form that takes it from a register. -/
def nativeForm? (op : Op) (e : Elem) : Option (Form × Level) :=
  if e.isFloat then floatForm? op e
  else match op with
    | .add => formByBits e 0xFC 0xFD 0xFE 0xD4
    | .sub => formByBits e 0xF8 0xF9 0xFA 0xFB
    | .ads => if e.isSigned then formByBits e 0xEC 0xED 0 0 else formByBits e 0xDC 0xDD 0 0
    | .sbs => if e.isSigned then formByBits e 0xE8 0xE9 0 0 else formByBits e 0xD8 0xD9 0 0
    | .mul =>
      if e.bits = 16 then some (.p66 0xD5, Level.sse2)
      else if e.bits = 32 then some (.p6638 0x40, Level.sse4)
      else none
    | .min | .max => minMaxForm? op e
    | .ceq =>
      if e.bits = 64 then some (.p6638 0x29, Level.sse4) else formByBits e 0x74 0x75 0x76 0
    | .cgt =>
      if !e.isSigned then none
      else if e.bits = 64 then some (.p6638 0x37, Level.sse4)
      else formByBits e 0x64 0x65 0x66 0
    | .shl => formByBits e 0 0xF1 0xF2 0xF3
    | .shr => if e.isSigned then formByBits e 0 0xE1 0xE2 0 else formByBits e 0 0xD1 0xD2 0xD3
    | .svl | .svr => shiftEachForm? op e
    | _ => none

/-- The form of an operation, or the blank one. -/
def nativeForm (op : Op) (e : Elem) : Form := ((nativeForm? op e).map (·.1)).getD .blank

/-- The predicate of a float comparator. Ordered predicates are false where a value is not a number,
and inequality is true there. -/
def floatPredicate : Op → UInt8
  | .clt => 0x01
  | .cle => 0x02
  | .cne => 0x04
  | _ => 0x00

/-- What can be computed lane by lane in general registers. -/
def scalarOp (op : Op) (e : Elem) : Bool :=
  !e.isFloat && match op with
    | .add | .sub | .mul | .min | .max | .ceq | .shl | .shr | .svl | .svr => true
    | .cgt => e.isSigned
    | _ => false

/-- How an operation is encoded: as it stands where the level has its form at this width, in two
halves of sixteen bytes where the level is short of wide integer forms, and lane by lane where no
form exists. -/
def planFor? (k : PlanKey) : Option Plan :=
  let scalar :=
    if scalarOp k.op k.elem then some ⟨.scalar, k.width, k.elem.bytes⟩ else none
  match nativeForm? k.op k.elem with
  | some (_, level) =>
    if level ≤ k.level then
      if k.width = 16 ∨ k.elem.isFloat ∨ Level.avx2 ≤ k.level then
        some ⟨.none, k.width, k.width⟩
      else if level ≤ Level.avx1 then some ⟨.vector, k.width, 16⟩
      else scalar
    else scalar
  | none => scalar

end LaneAsm.X86
