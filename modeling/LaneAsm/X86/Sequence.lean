import LaneAsm.Emission
import LaneAsm.Plan.Expand
import LaneAsm.X86.Insn

/-!
Short instruction sequences that the encodings of operations are put together from. Each is a list
of instructions for a target.
-/
namespace LaneAsm.X86

/-- Whether a target has VEX encodings. -/
def vexed (cfg : Config) : Bool := Level.avx1 ≤ cfg.level

/-- Whether the physical vector registers have 32 bytes. -/
def wide (cfg : Config) : Bool := cfg.physBytes == 32

/-- Whether vectors of 32 bytes lack their integer forms. -/
def floatOnly (cfg : Config) : Bool := wide cfg && cfg.level < Level.avx2

/-- Whether the masked move is one instruction at this level and width. -/
def blends (cfg : Config) : Bool :=
  if wide cfg then Level.avx2 ≤ cfg.level else Level.sse4 ≤ cfg.level

/-- Whether base operations have 64 bits. -/
def base64 (cfg : Config) : Bool := cfg.baseBits == 64

/-- The general registers that sequences save, use and restore. -/
def rax : RegNum := 0
def rcx : RegNum := 1

/-- The physical vector register kept for sequences. -/
def tmp : RegNum := 15

/-- `dst = f x`. -/
def op2 (cfg : Config) (f : Form) (long : Bool) (dst : RegNum) (x : Rm) : Insn :=
  if vexed cfg then .vex f long dst 0 x [] else .legacy f dst x []

/-- Copies a vector register. -/
def copy (cfg : Config) (long : Bool) (dst src : RegNum) : List Insn :=
  if dst = src then [] else [op2 cfg .movaps long dst (.reg src)]

def load (cfg : Config) (long : Bool) (dst : RegNum) (m : Mem) : Insn :=
  op2 cfg .movupsLoad long dst (.mem m)

def store (cfg : Config) (long : Bool) (m : Mem) (src : RegNum) : Insn :=
  op2 cfg .movupsStore long src (.mem m)

/-- `dst = s1 f s2`. Without VEX the destination is also the first source, so it receives `s1`
first; where it is the second source, the sources are exchanged if they may be, and otherwise the
second source is parked in the temporary. -/
def op3 (cfg : Config) (f : Form) (long commutative : Bool) (dst s1 : RegNum) (s2 : Rm)
    (imm : List UInt8) : List Insn :=
  if vexed cfg then [.vex f long dst s1 s2 imm]
  else if dst = s1 then [.legacy f dst s2 imm]
  else if s2 = .reg dst then
    if commutative then [.legacy f dst (.reg s1) imm]
    else copy cfg false tmp dst ++ copy cfg false dst s1 ++ [.legacy f dst (.reg tmp) imm]
  else copy cfg false dst s1 ++ [.legacy f dst s2 imm]

/-- Sets every bit of a vector register. Where vectors of 32 bytes lack integer comparisons the float
predicate that always holds does it. -/
def setAll (cfg : Config) (r : RegNum) : List Insn :=
  if floatOnly cfg then [.vex .cmpps true r r (.reg r) [0x0F]]
  else op3 cfg .pcmpeqd (wide cfg) true r r (.reg r) []

/-- A general operation with a register on both sides. -/
def gpRegReg (opcode : UInt8) (w : Bool) (dst src : RegNum) : Insn :=
  .legacy (.one opcode w) src (.reg dst) []

/-- A general operation with a sign-extended byte. -/
def gpByte (w : Bool) (digit dst : RegNum) (v : UInt8) : Insn :=
  .legacy (.one 0x83 w) digit (.reg dst) [v]

/-- Loads one lane into a general register, extended to 32 bits. -/
def loadLane (e : Elem) (r : RegNum) (m : Mem) : Insn :=
  let f : Form :=
    if e.bits = 8 then .m0F (if e.isSigned then 0xBE else 0xB6)
    else if e.bits = 16 then .m0F (if e.isSigned then 0xBF else 0xB7)
    else .one 0x8B (e.bits == 64)
  .legacy f r (.mem m) []

/-- Stores the low part of a general register as one lane. -/
def storeLane (e : Elem) (m : Mem) (r : RegNum) : Insn :=
  let f : Form :=
    if e.bits = 8 then .one 0x88 false
    else if e.bits = 16 then ⟨.p66, .one, 0x89, false⟩
    else .one 0x89 (e.bits == 64)
  .legacy f r (.mem m) []

/-- The bits of a shift count that matter. -/
def countMask (e : Elem) : UInt8 := UInt8.ofInt ((e.bits : Int) - 1)

/-- Reads the first lane of a memory operand into the count register and masks it. -/
def loadCount (e : Elem) (m : Mem) : List Insn :=
  [loadLane ⟨Nat.min e.bits 32, .unsigned⟩ rcx m, gpByte false 4 rcx (countMask e)]

/-- The opcode extension of a vector shift by an immediate. -/
def shiftDigit (op : Op) (e : Elem) : RegNum :=
  if op = .shl then 6 else if e.isSigned then 4 else 2

/-- Shifts a vector register by an immediate. -/
def shiftImm (cfg : Config) (op : Op) (e : Elem) (dst src : RegNum) (n : UInt8) : List Insn :=
  let group := Form.shiftGroup e.bits
  let digit := shiftDigit op e
  if vexed cfg then [.vex group (wide cfg) digit dst (.reg src) [n]]
  else copy cfg false dst src ++ [.legacy group digit (.reg dst) [n]]

/-- Shifts the lane in `rax` by the count in `cl`. -/
def shiftLane (op : Op) (e : Elem) : Insn :=
  let digit : RegNum := if op = .shl ∨ op = .svl then 4 else if e.isSigned then 7 else 5
  .legacy (.one 0xD3 (e.bits == 64)) digit (.reg rax) []

/-- Turns a condition into a lane of ones or zeros in `rax`. -/
def setLane (w : Bool) (cc : UInt8) : List Insn :=
  [.legacy (.m0F (0x90 + cc)) 0 (.reg rax) [], .legacy (.m0F 0xB6) rax (.reg rax) [],
    .legacy (.one 0xF7 w) 3 (.reg rax) []]

/-- Combines the lane in `rax` with the lane in `rcx`. Narrow lanes come extended, so arithmetic of
32 bits gives their results. -/
def scalar (op : Op) (e : Elem) : Except Error (List Insn) :=
  let w := e.bits == 64
  let compared := gpRegReg 0x39 w rax rcx
  let select (cc : UInt8) : Insn := .legacy ((Form.m0F (0x40 + cc)).sized w) rax (.reg rcx) []
  match op with
  | .add => .ok [gpRegReg 0x01 w rax rcx]
  | .sub => .ok [gpRegReg 0x29 w rax rcx]
  | .mul => .ok [.legacy ((Form.m0F 0xAF).sized w) rax (.reg rcx) []]
  | .min => .ok [compared, select (if e.isSigned then 0xF else 0x7)]
  | .max => .ok [compared, select (if e.isSigned then 0xC else 0x2)]
  | .ceq => .ok (compared :: setLane w 0x4)
  | .cgt => .ok (compared :: setLane w 0xF)
  | .svl | .svr => .ok [gpByte false 4 rcx (countMask e), shiftLane op e]
  | _ => Error.fail (.unsupported (.scalar op e))

end LaneAsm.X86
