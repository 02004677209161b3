import LaneAsm.Msa.Address
import LaneAsm.Primitive

/-!
Instruction selection: the instructions of each primitive.
-/
namespace LaneAsm.Msa

/-- The vector register kept for sequences. -/
def scratch : Num := 15

/-- Whether base operations have 64 bits. -/
def base64 (cfg : Config) : Bool := cfg.baseBits == 64 && cfg.isa == .mips64

/-- The number of a vector register. -/
def vectorNum (r : Reg) : Except Error Num :=
  if h : r.kind = .vector ∧ 0 ≤ r.index ∧ r.index ≤ 31 then .ok ⟨r.index.toNat, by omega⟩
  else Error.fail (.registerOutside r)

/-- The general register of a base register. -/
def baseNum (r : Reg) : Except Error Num :=
  match r.kind, general? r.index with
  | .base, some n => .ok n
  | _, _ => Error.fail (.registerOutside r)

/-- The register that holds a source; memory is loaded into the scratch register. -/
def vectorSource (cfg : Config) (o : Operand) : Selection Num :=
  match o with
  | .reg r => .check (vectorNum r)
  | .mem m => do
    accessVector cfg false scratch m
    return scratch
  | .imm i => .fail (.operandKind (.operand (.imm i)))

/-- The encoding of a lanewise operation: on integers or on floats. -/
inductive Lanewise where
  | integer (op : Three)
  | float (op : Float3)
deriving Repr, DecidableEq

namespace Lanewise

/-- The encoding of an operation on an element type. -/
def ofOp? (op : Op) (e : Elem) : Option Lanewise :=
  if e.isFloat then
    match op with
    | .add => some (.float .fadd)
    | .sub => some (.float .fsub)
    | .mul => some (.float .fmul)
    | .div => some (.float .fdiv)
    | .min => some (.float .fmin)
    | .max => some (.float .fmax)
    | .ceq => some (.float .fceq)
    | .clt => some (.float .fclt)
    | .cle => some (.float .fcle)
    | .cne => some (.float .fcune)
    | _ => none
  else
    let pick (signed unsigned : Three) : Option Lanewise :=
      some (.integer (if e.isSigned then signed else unsigned))
    match op with
    | .add => some (.integer .addv)
    | .sub => some (.integer .subv)
    | .max => pick .maxS .maxU
    | .min => pick .minS .minU
    | .ads => pick .addsS .addsU
    | .sbs => pick .subsS .subsU
    | .mul => some (.integer .mulv)
    | .ceq => some (.integer .ceq)
    | .clt => pick .cltS .cltU
    | .cle => pick .cleS .cleU
    | .shl | .svl => some (.integer .sll)
    | .shr | .svr => pick .sra .srl
    | _ => none

/-- The instruction of an encoding. -/
def insn (f : Lanewise) (e : Elem) (wd ws wt : Num) : Insn :=
  match f with
  | .integer op => .three op (.ofBits e.bits) wd ws wt
  | .float op => .float op (e.bits == 64) wd ws wt

end Lanewise

/-- Integers have equality and both orders in either signedness, floats the ordered ones and the
unordered inequality. -/
def nativeCompare (c : Op) (e : Elem) : Bool :=
  match c with
  | .ceq | .clt | .cle => true
  | .cne => e.isFloat
  | _ => false

def selectMove (cfg : Config) (dst src : Operand) : Selection Unit :=
  match dst, src with
  | .reg d, .reg s => do
    let d ← .check (vectorNum d)
    let s ← .check (vectorNum s)
    if s = d then .emitAll [] else put (.move d s)
  | .reg d, .mem m => do
    let d ← .check (vectorNum d)
    accessVector cfg false d m
  | .reg d, .imm i => do
    let _ ← .check (vectorNum d)
    .fail (.operandKind (.move dst (.imm i)))
  | .mem m, .reg s => do
    let s ← .check (vectorNum s)
    accessVector cfg true s m
  | .mem _, _ => .fail (.operandKind .storeSource)
  | .imm _, _ => .fail (.operandKind (.move dst src))

def selectLogic (cfg : Config) (op : Op) (dst s1 : Reg) (s2 : Operand) : Selection Unit := do
  let d ← .check (vectorNum dst)
  let x ← .check (vectorNum s1)
  let y ← vectorSource cfg s2
  match op with
  | .and => put (.vec .and d x y)
  | .orr => put (.vec .or d x y)
  | .xor => put (.vec .xor d x y)
  | _ => .fail (.unsupported (.logic op))

def selectNot (dst src : Reg) : Selection Unit := do
  let d ← .check (vectorNum dst)
  let s ← .check (vectorNum src)
  put (.vec .nor d s s)

/-- A lanewise operation on two sources. -/
def selectThree (cfg : Config) (op : Op) (e : Elem) (dst s1 : Reg) (s2 : Operand) :
    Selection Unit := do
  let d ← .check (vectorNum dst)
  let x ← .check (vectorNum s1)
  match Lanewise.ofOp? op e with
  | some f => do
    let y ← vectorSource cfg s2
    put (f.insn e d x y)
  | none => .fail (.unsupported (.operation op e cfg.name))

def selectCompare (cfg : Config) (c : Op) (e : Elem) (dst s1 : Reg) (s2 : Operand) :
    Selection Unit :=
  if nativeCompare c e then selectThree cfg c e dst s1 s2
  else .fail (.unsupported (.direct c e))

/-- A shift by one count. A count from memory is loaded, its first lane spread over the vector and
used as a count for each lane, which the machine takes modulo the lane width. -/
def selectShift (cfg : Config) (op : Op) (e : Elem) (dst src : Reg) (count : Operand) :
    Selection Unit := do
  let d ← .check (vectorNum dst)
  let s ← .check (vectorNum src)
  let df := Format.ofBits e.bits
  match count with
  | .imm i =>
    let bop : BitOp := if op = .shr then if e.isSigned then .srai else .srli else .slli
    let n := UInt32.ofInt i.value &&& UInt32.ofInt ((e.bits : Int) - 1)
    put (.bit bop df n.toNat d s)
  | .mem m =>
    accessVector cfg false scratch m
    put (.splat (firstElement df) scratch scratch)
    put (((Lanewise.ofOp? op e).getD (.integer .blank)).insn e d s scratch)
  | .reg r => .fail (.operandKind (.shiftCount (.reg r)))

def selectMerge (cfg : Config) (dst : Reg) (src : Operand) (mask : Reg) : Selection Unit := do
  let d ← .check (vectorNum dst)
  let m ← .check (vectorNum mask)
  let s ← vectorSource cfg src
  if s = d then .emitAll [] else put (.vec .bmnz d s m)

/-- Every byte is reduced to its top bit before the branch. -/
def selectMaskJump (src : Reg) (cond : MaskCond) (target : LabelRef) : Selection Unit := do
  let s ← .check (vectorNum src)
  put (.bit .srli .b 7 scratch s)
  let op : BranchOp := match cond with
    | .none => .bzV
    | .full => .bnzB
  .emit (.jump (.branch op scratch 0) target)

/-- Loads a base value from memory. -/
def loadBase (cfg : Config) (rt : Num) (m : Mem) : Selection Unit :=
  accessGeneral cfg (if base64 cfg then .ld else .lw) rt m

/-- Stores a base value to memory. -/
def storeBase (cfg : Config) (rt : Num) (m : Mem) : Selection Unit :=
  accessGeneral cfg (if base64 cfg then .sd else .sw) rt m

/-- The register that holds a base source; immediates and memory are loaded into `rT9`. -/
def baseSource (cfg : Config) (o : Operand) : Selection Num :=
  match o with
  | .reg r => .check (baseNum r)
  | .imm i => do
    .emitAll ((loadImmediate rT9 i.signed).map .insn)
    return rT9
  | .mem m => do
    loadBase cfg rT9 m
    return rT9

def selectMoveBase (cfg : Config) (dst src : Operand) : Selection Unit :=
  match dst with
  | .reg r => do
    let d ← .check (baseNum r)
    match src with
    | .reg s =>
      let s ← .check (baseNum s)
      if s = d then .emitAll [] else put (.special .or d s rZero 0)
    | .imm i => .emitAll ((loadImmediate d i.signed).map .insn)
    | .mem m => loadBase cfg d m
  | .mem m =>
    match src with
    | .reg s => do
      let s ← .check (baseNum s)
      storeBase cfg s m
    | _ => .fail (.operandKind .storeSource)
  | .imm i => .fail (.operandKind (.operand (.imm i)))

/-- The form of a base operation with an immediate, where it fits one. -/
def immediateForm? (cfg : Config) (op : Op) (v : Int) : Option (ImmOp × UInt16) :=
  let add : ImmOp := if base64 cfg then .daddiu else .addiu
  let short := 0 ≤ v && v ≤ 0xFFFF
  match op with
  | .add => if fitsShort v then some (add, UInt16.ofInt v) else none
  | .sub => if fitsShort (-v) then some (add, UInt16.ofInt (-v)) else none
  | .and => if short then some (.andi, UInt16.ofInt v) else none
  | .orr => if short then some (.ori, UInt16.ofInt v) else none
  | .xor => if short then some (.xori, UInt16.ofInt v) else none
  | _ => none

/-- The form of a base operation on registers. -/
def registerForm? (cfg : Config) (op : Op) : Option Special :=
  match op with
  | .add => some (if base64 cfg then .daddu else .addu)
  | .sub => some (if base64 cfg then .dsubu else .subu)
  | .and => some .and
  | .orr => some .or
  | .xor => some .xor
  | _ => none

/-- The immediate form of a base operation on a source, where there is one. -/
def shortSource? (cfg : Config) (op : Op) : Operand → Option (ImmOp × UInt16)
  | .imm i => immediateForm? cfg op i.signed
  | _ => none

def selectArithBase (cfg : Config) (op : Op) (dst : Reg) (src : Operand) : Selection Unit := do
  let d ← .check (baseNum dst)
  match shortSource? cfg op src with
  | some (iop, value) => put (.imm iop d d value)
  | none => do
    let t ← baseSource cfg src
    match registerForm? cfg op with
    | some fn => put (.special fn d d t 0)
    | none => .fail (.unsupported (.base op))

/-- The shifts of a base register: those of 32 bits, and those of 64 with a count below 32 and above. -/
def shiftForm (cfg : Config) (narrow low high : Special) (n : Nat) : Special × Nat :=
  if base64 cfg then if 32 ≤ n then (high, n - 32) else (low, n) else (narrow, n)

def selectShiftBase (cfg : Config) (op : Op) (signed : Bool) (dst : Reg) (count : Imm) :
    Selection Unit := do
  let d ← .check (baseNum dst)
  let n := (UInt32.ofInt count.value &&& UInt32.ofInt ((cfg.baseBits : Int) - 1)).toNat
  let emit (form : Special × Nat) : Selection Unit := put (.special form.1 d rZero d form.2)
  match op with
  | .shl => emit (shiftForm cfg .sll .dsll .dsll32 n)
  | .shr =>
    if signed then emit (shiftForm cfg .sra .dsra .dsra32 n)
    else emit (shiftForm cfg .srl .dsrl .dsrl32 n)
  | _ => .fail (.unsupported (.base op))

/-- How an ordered condition is decided: by the signed or the unsigned comparison, of the values as
they stand or exchanged, and whether the jump is taken when the comparison holds. -/
structure Ordering where
  compare : Special
  exchanged : Bool
  holds : Bool
deriving Repr, DecidableEq

/-- The decision of an ordered condition. -/
def Ordering.ofCond? : Cond → Option Ordering
  | .ltu => some ⟨.sltu, false, true⟩
  | .geu => some ⟨.sltu, false, false⟩
  | .gtu => some ⟨.sltu, true, true⟩
  | .leu => some ⟨.sltu, true, false⟩
  | .lts => some ⟨.slt, false, true⟩
  | .ges => some ⟨.slt, false, false⟩
  | .gts => some ⟨.slt, true, true⟩
  | .les => some ⟨.slt, true, false⟩
  | _ => none

def selectCompareJump (cfg : Config) (c : Cond) (x : Reg) (y : Operand) (target : LabelRef) :
    Selection Unit := do
  let a ← .check (baseNum x)
  let b ← baseSource cfg y
  let branch (op : ImmOp) (rt rs : Num) : Selection Unit := .emit (.jump (.imm op rt rs 0) target)
  match c with
  | .eq => branch .beq b a
  | .ne => branch .bne b a
  | c =>
    match Ordering.ofCond? c with
    | some o => do
      put (if o.exchanged then .special o.compare rAt b a 0 else .special o.compare rAt a b 0)
      branch (if o.holds then .bne else .beq) rZero rAt
    | none => .fail (.unsupported (.condition c))

/-- The instructions of a primitive; binding a label takes none. -/
def select (cfg : Config) : Primitive → Selection Unit
  | .move dst src => selectMove cfg dst src
  | .logic op dst s1 s2 => selectLogic cfg op dst s1 s2
  | .not dst src => selectNot dst src
  | .arith op e dst s1 s2 => selectThree cfg op e dst s1 s2
  | .shift op e dst src count => selectShift cfg op e dst src count
  | .shiftEach op e dst src counts => selectThree cfg op e dst src counts
  | .compare c e dst s1 s2 => selectCompare cfg c e dst s1 s2
  | .merge dst src mask => selectMerge cfg dst src mask
  | .maskJump src cond target => selectMaskJump src cond target
  | .moveBase dst src => selectMoveBase cfg dst src
  | .arithBase op dst src => selectArithBase cfg op dst src
  | .shiftBase op signed dst count => selectShiftBase cfg op signed dst count
  | .compareJump c x y target => selectCompareJump cfg c x y target
  | .jump target => .emit (.jump (.imm .beq rZero rZero 0) target)
  | .bind _ => .emitAll []

end LaneAsm.Msa
