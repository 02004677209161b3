import LaneAsm.Proofs.X86.Forms
import LaneAsm.Proofs.X86.Memory

/-!
A processor that runs the instructions of the encoder. General registers have 64 bits and vector
registers 32 bytes; what an instruction does is stated on numbers, as its documentation does. Without
VEX vectors have sixteen bytes, the destination is also the first source, and its bytes above stay;
with VEX the destination is a register of its own, and the bytes above become zero. Of vector
arithmetic only what sixteen bytes give is known, through a `VectorUnit`. An instruction that faults
has no next state: one that takes a vector from memory where it is not aligned though it has to be. Nor
has one that is not modelled, or that reads flags which no comparison has set.
-/
namespace LaneAsm.X86

/-- The stack pointer. -/
def rsp : RegNum := 4

/-- The flags that a comparison sets. -/
structure Flags where
  carry : Bool
  zero : Bool
  sign : Bool
  overflow : Bool
deriving Repr, DecidableEq

/-- The state of the processor. -/
structure State where
  gpr : RegNum → UInt64
  vec : RegNum → Vector UInt8 32
  mem : Memory
  flags : Option Flags

/-- The low bits of a word. -/
def cut (bits : Nat) (x : UInt64) : UInt64 := UInt64.ofNat (x.toNat % 2 ^ bits)

/-- The signed number that the low bits of a word stand for. -/
def signed (bits : Nat) (x : UInt64) : Int := (x.toNat : Int).bmod (2 ^ bits)

namespace Flags

/-- The flags of the difference of two words. -/
def compare (bits : Nat) (x y : UInt64) : Flags where
  carry := cut bits x < cut bits y
  zero := cut bits x = cut bits y
  sign := signed bits (x - y) < 0
  overflow := signed bits x - signed bits y ≠ signed bits (x - y)

/-- Whether a condition code holds; parity is not kept. -/
def holds? (f : Flags) (cc : Nat) : Option Bool :=
  match cc with
  | 0x0 => some f.overflow
  | 0x1 => some (!f.overflow)
  | 0x2 => some f.carry
  | 0x3 => some (!f.carry)
  | 0x4 => some f.zero
  | 0x5 => some (!f.zero)
  | 0x6 => some (f.carry || f.zero)
  | 0x7 => some (!f.carry && !f.zero)
  | 0x8 => some f.sign
  | 0x9 => some (!f.sign)
  | 0xC => some (f.sign != f.overflow)
  | 0xD => some (f.sign == f.overflow)
  | 0xE => some (f.zero || f.sign != f.overflow)
  | 0xF => some (!f.zero && f.sign == f.overflow)
  | _ => none

end Flags

/-- The bytes of a short or long vector. -/
def vectorBytes (long : Bool) : Nat := if long then 32 else 16

theorem vectorBytes_le (long : Bool) : vectorBytes long ≤ 32 := by cases long <;> decide

/-- The bytes of a vector register with its first ones replaced. -/
def overlay (old : Vector UInt8 32) (b : Bytes) : Vector UInt8 32 :=
  .ofFn fun i => b.getD i (old.get i)

namespace State

def setGpr (s : State) (r : RegNum) (x : UInt64) : State :=
  { s with gpr := fun k => if k = r then x else s.gpr k }

def setVec (s : State) (r : RegNum) (v : Vector UInt8 32) : State :=
  { s with vec := fun k => if k = r then v else s.vec k }

def store (s : State) (a : UInt64) (v : Bytes) : State := { s with mem := s.mem.write a v }

/-- The first bytes of a vector register. -/
def low (s : State) (r : RegNum) (n : Nat) : Bytes := (s.vec r).toArray.extract 0 n

/-- A general register gets a result, which leaves the flags open. -/
def compute (s : State) (r : RegNum) (x : UInt64) : State := { s.setGpr r x with flags := none }

/-- What the index of a memory operand adds. -/
def index? (s : State) (m : Mem) : Option UInt64 :=
  match m.index with
  | some r => (baseNum r).toOption.map s.gpr
  | none => some 0

/-- The address of a memory operand. Displacements are signed numbers of 32 bits; `short` addresses
are cut to 32 bits. -/
def address? (short : Bool) (s : State) (m : Mem) : Option UInt64 :=
  (baseNum m.base).toOption.bind fun base => (s.index? m).map fun index =>
    let a := s.gpr base + index + UInt64.ofInt (m.disp.value.bmod (2 ^ 32))
    if short then cut 32 a else a

/-- The value of a general source. Bytes are those of the first four registers. -/
def source? (short : Bool) (s : State) (bits : Nat) : Rm → Option UInt64
  | .reg r => if bits = 8 ∧ 4 ≤ r.val then none else some (cut bits (s.gpr r))
  | .mem m => (s.address? short m).map fun a => wordOf (s.mem.read a (bits / 8)).toList

/-- The first bytes of a vector register or of memory. -/
def bytes? (short : Bool) (s : State) (n : Nat) : Rm → Option Bytes
  | .reg r => some (s.low r n)
  | .mem m => (s.address? short m).map fun a => s.mem.read a n

/-- Whether an operand of some bytes lies in memory, at an address that is no multiple of them. -/
def misaligned (short : Bool) (s : State) (n : Nat) : Rm → Bool
  | .reg _ => false
  | .mem m => (s.address? short m).any fun a => a.toNat % n != 0

/-- The count of a shift, of which five bits count, or six where words have 64 bits. -/
def count (s : State) (bits : Nat) : Nat :=
  (s.gpr rcx).toNat % 256 % (if bits = 64 then 64 else 32)

end State

namespace Rm

def reg? : Rm → Option RegNum
  | .reg r => some r
  | .mem _ => none

def mem? : Rm → Option Mem
  | .reg _ => none
  | .mem m => some m

end Rm

namespace State

/-- What an instruction with a meaning does. -/
def perform (short : Bool) (s : State) (r : RegNum) (x : Rm) (imm : List UInt8) :
    Meaning → Option State
  | .loadVector => x.mem?.bind fun m => (s.address? short m).map fun a =>
    s.setVec r (overlay (s.vec r) (s.mem.read a 16))
  | .storeVector => x.mem?.bind fun m => (s.address? short m).map fun a =>
    s.store a (s.low r 16)
  | .load bits | .zeroExtend bits => (s.source? short bits x).map fun y => s.setGpr r y
  | .signExtend bits wide => (s.source? short bits x).map fun y =>
    s.setGpr r (cut wide (UInt64.ofInt (signed bits y)))
  | .store bits => x.mem?.bind fun m => (s.address? short m).bind fun a =>
    if bits = 8 ∧ 4 ≤ r.val then none
    else some (s.store a (littleEndian (bits / 8) (s.gpr r)).toArray)
  | .add bits => x.reg?.map fun d => s.compute d (cut bits (s.gpr d + s.gpr r))
  | .sub bits => x.reg?.map fun d => s.compute d (cut bits (s.gpr d - s.gpr r))
  | .mul bits => (s.source? short bits x).map fun y => s.compute r (cut bits (s.gpr r * y))
  | .compare bits => x.reg?.map fun d =>
    { s with flags := some (.compare bits (s.gpr d) (s.gpr r)) }
  | .andByte bits => x.reg?.bind fun d => imm.head?.map fun v =>
    s.compute d (cut bits (s.gpr d &&& UInt64.ofInt (signed 8 v.toUInt64)))
  | .negate bits => x.reg?.map fun d => s.compute d (cut bits (0 - s.gpr d))
  | .shiftLeft bits => x.reg?.map fun d =>
    s.compute d (cut bits (UInt64.ofNat ((s.gpr d).toNat * 2 ^ s.count bits)))
  | .shiftRight bits => x.reg?.map fun d =>
    s.compute d (UInt64.ofNat ((cut bits (s.gpr d)).toNat / 2 ^ s.count bits))
  | .shiftRightSigned bits => x.reg?.map fun d =>
    s.compute d (cut bits (UInt64.ofInt (signed bits (s.gpr d) / 2 ^ s.count bits)))
  | .moveIf cc bits => s.flags.bind fun f => (f.holds? cc).bind fun holds =>
    (s.source? short bits x).map fun y => s.setGpr r (if holds then y else cut bits (s.gpr r))
  | .setIf cc => s.flags.bind fun f => (f.holds? cc).bind fun holds => x.reg?.bind fun d =>
    if 4 ≤ d.val then none
    else some (s.setGpr d (UInt64.ofNat ((s.gpr d).toNat / 256 * 256 + holds.toNat)))

/-- What an instruction gives that combines a vector register with a register or memory, unless it
faults. -/
def combine? (u : VectorUnit) (short inVex : Bool) (s : State) (f : Form) (long : Bool) (v : RegNum)
    (x : Rm) (imm : List UInt8) : Option Bytes :=
  let n := vectorBytes long
  if f.aligned u inVex && s.misaligned short n x then none
  else (s.bytes? short n x).bind (f.give? u long imm (s.low · n) (s.low v n))

/-- What an instruction outside VEX does. -/
def performLegacy (u : VectorUnit) (short : Bool) (s : State) (f : Form) (r : RegNum) (x : Rm)
    (imm : List UInt8) : Option State :=
  match f.meaning? r with
  | some meaning => s.perform short r x imm meaning
  | none => (s.combine? u short false f false r x imm).map fun w =>
    s.setVec r (overlay (s.vec r) w)

/-- What an instruction in VEX does: moves between registers and memory, shifts by an immediate, and
what combines two vectors. -/
def performVex (u : VectorUnit) (short : Bool) (s : State) (f : Form) (long : Bool) (r v : RegNum)
    (x : Rm) (imm : List UInt8) : Option State :=
  let n := vectorBytes long
  let zero := Vector.replicate 32 0
  match f.meaning? r with
  | some .loadVector => x.mem?.bind fun m => (s.address? short m).map fun a =>
    s.setVec r (overlay zero (s.mem.read a n))
  | some .storeVector => x.mem?.bind fun m => (s.address? short m).map fun a =>
    s.store a (s.low r n)
  | some _ => none
  | none =>
    if f.isShiftGroup then
      if long then none
      else x.reg?.bind fun y => imm.head?.map fun c =>
        s.setVec v (overlay zero (u.shift f r (s.low y 16) c))
    else (s.combine? u short true f long v x imm).map fun w => s.setVec r (overlay zero w)

/-- What an instruction does. -/
def exec (u : VectorUnit) (short : Bool) (s : State) : Insn → Option State
  | .legacy f r x imm => s.performLegacy u short f r x imm
  | .vex f long r v x imm => s.performVex u short f long r v x imm
  | .push r =>
    let top := s.gpr rsp - 8
    some ((s.setGpr rsp top).store top (littleEndian 8 (s.gpr r)).toArray)
  | .pop r =>
    let top := s.gpr rsp
    some ((s.setGpr rsp (top + 8)).setGpr r (wordOf (s.mem.read top 8).toList))
  | .movImm r value => some (s.setGpr r value.toUInt64)
  | _ => none

section
variable {u : VectorUnit} {short : Bool} {s : State} {f : Form} {x : Rm} {imm : List UInt8} {b v : Bytes}

/-- Two vectors are combined unless the second one would have to be aligned and is not. -/
theorem combine?_eq {inVex long : Bool} {k : RegNum} (given : s.bytes? short (vectorBytes long) x = some b)
    (can : f.aligned u inVex = true → s.misaligned short (vectorBytes long) x = false) :
    s.combine? u short inVex f long k x imm =
      f.give? u long imm (s.low · (vectorBytes long)) (s.low k (vectorBytes long)) b := by
  have open' : ¬(f.aligned u inVex && s.misaligned short (vectorBytes long) x) = true := by
    rw [Bool.and_eq_true]
    rintro ⟨aligned, off⟩
    rw [can aligned] at off
    cases off
  simp only [combine?, if_neg open', given, Option.bind_some]

theorem exec_legacy {r : RegNum} (given : s.bytes? short 16 x = some b)
    (can : f.aligned u false = true → s.misaligned short 16 x = false)
    (gives : f.give? u false imm (s.low · 16) (s.low r 16) b = some v) :
    s.exec u short (.legacy f r x imm) = some (s.setVec r (overlay (s.vec r) v)) := by
  rw [exec, performLegacy, (Form.meaning?_of_give? gives r).1]
  have combined : s.combine? u short false f false r x imm = some v := (combine?_eq given can).trans gives
  simp only [combined, Option.map_some]

theorem exec_vex {long : Bool} {r k : RegNum} (given : s.bytes? short (vectorBytes long) x = some b)
    (can : f.aligned u true = true → s.misaligned short (vectorBytes long) x = false)
    (gives : f.give? u long imm (s.low · (vectorBytes long)) (s.low k (vectorBytes long)) b = some v) :
    s.exec u short (.vex f long r k x imm) = some (s.setVec r (overlay (.replicate 32 0) v)) := by
  obtain ⟨vector, single⟩ := Form.meaning?_of_give? gives r
  rw [exec, performVex, vector]
  simp only [single, Bool.false_eq_true, if_false, combine?_eq given can, gives, Option.map_some]

end

/-- What instructions do one after the other. -/
def run (u : VectorUnit) (short : Bool) : List Insn → State → Option State
  | [], s => some s
  | i :: is, s => (s.exec u short i).bind (run u short is)

theorem run_append {u : VectorUnit} {short : Bool} {is js : List Insn} {s t : State}
    (first : s.run u short is = some t) : s.run u short (is ++ js) = t.run u short js := by
  induction is generalizing s with
  | nil =>
    cases first
    rfl
  | cons i is ih =>
    obtain ⟨s₁, step, rest⟩ := Option.bind_eq_some_iff.mp first
    rw [List.cons_append, run, step]
    exact ih rest

/-- A run stops at an instruction that has no next state. -/
theorem run_of_fault {u : VectorUnit} {short : Bool} {is : List Insn} {i : Insn} {s t : State}
    (first : s.run u short is = some t) (fault : t.exec u short i = none) (js : List Insn) :
    s.run u short (is ++ i :: js) = none := by
  rw [run_append first, run, fault, Option.bind_none]

/-- Instructions run to a state with a property. -/
def Reaches (u : VectorUnit) (short : Bool) (s : State) (is : List Insn) (post : State → Prop) :
    Prop := ∃ t, s.run u short is = some t ∧ post t

namespace Reaches

variable {u : VectorUnit} {short : Bool} {s t : State} {is js : List Insn} {i : Insn}
  {mid post : State → Prop}

theorem done (holds : post s) : s.Reaches u short [] post := ⟨s, rfl, holds⟩

theorem step (first : s.exec u short i = some t) (rest : t.Reaches u short is post) :
    s.Reaches u short (i :: is) post := by
  obtain ⟨v, ran, holds⟩ := rest
  exact ⟨v, by rw [run, first, Option.bind_some, ran], holds⟩

theorem append (first : s.Reaches u short is mid)
    (rest : ∀ t, mid t → t.Reaches u short js post) : s.Reaches u short (is ++ js) post := by
  obtain ⟨t, ran, holds⟩ := first
  obtain ⟨v, rest, holds⟩ := rest t holds
  exact ⟨v, (run_append ran).trans rest, holds⟩

end Reaches

end State

end LaneAsm.X86
