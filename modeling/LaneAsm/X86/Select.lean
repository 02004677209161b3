import LaneAsm.Primitive
import LaneAsm.X86.Expand

/-!
Instruction selection: the instructions of each primitive.
-/
namespace LaneAsm.X86

/-- The number of a register of a class, if the class and the number are right. -/
def number (kind : RegClass) (r : Reg) : Except Error RegNum :=
  if h : r.kind = kind ∧ 0 ≤ r.index ∧ r.index ≤ 15 then .ok ⟨r.index.toNat, by omega⟩
  else Error.fail (.registerOutside r)

/-- The number of a vector register. -/
def vectorNum (r : Reg) : Except Error RegNum := number .vector r

/-- The number of a general register. -/
def baseNum (r : Reg) : Except Error RegNum := number .base r

/-- Vector memory is not based on the stack pointer, which expansions move, nor indexed by it. -/
def checkVectorMem (m : Mem) : Except Error Unit :=
  if m.base.index = Reg.stack.index then Error.fail (.operandKind .stackBase)
  else if m.index.map Reg.index = some Reg.stack.index then Error.fail (.operandKind .stackIndex)
  else .ok ()

/-- The second source of a vector operation. -/
def vectorSource (o : Operand) : Except Error Rm :=
  match o with
  | .reg r => (vectorNum r).map .reg
  | .mem m => do
    checkVectorMem m
    return .mem m
  | .imm i => Error.fail (.operandKind (.operand (.imm i)))

/-- The plan of an operation on a target. -/
def planOf? (cfg : Config) (op : Op) (e : Elem) : Option Plan :=
  planFor? ⟨op, e, cfg.level, cfg.physBytes⟩

/-- The plan of an operation, which has to have one. -/
def planOf (cfg : Config) (op : Op) (e : Elem) : Except Error Plan :=
  match planOf? cfg op e with
  | some p => .ok p
  | none => Error.fail (.unsupported (.operation op e cfg.name))

/-- Integers have equality and the signed comparison, floats the four predicates with an encoding. -/
def nativeCompare (c : Op) (e : Elem) : Bool :=
  if e.isFloat then c == .ceq || c == .cne || c == .clt || c == .cle
  else c == .ceq || (c == .cgt && e.isSigned)

def selectMove (cfg : Config) (dst src : Operand) : Selection Unit :=
  match dst with
  | .reg d => do
    let d ← .check (vectorNum d)
    match ← .check (vectorSource src) with
    | .mem m => .emit (load cfg (wide cfg) d m)
    | .reg s => .emitAll (copy cfg (wide cfg) d s)
  | .mem m =>
    match src with
    | .reg s => do
      let s ← .check (vectorNum s)
      .check (checkVectorMem m)
      .emit (store cfg (wide cfg) m s)
    | _ => .fail (.operandKind .storeSource)
  | .imm i => .fail (.operandKind (.operand (.imm i)))

def selectLogic (cfg : Config) (op : Op) (dst s1 : Reg) (s2 : Operand) : Selection Unit := do
  let d ← .check (vectorNum dst)
  let x ← .check (vectorNum s1)
  let y ← .check (vectorSource s2)
  let emit (f : Form) (commutative : Bool) : Selection Unit :=
    .emitAll (op3 cfg f (wide cfg) commutative d x y [])
  match op with
  | .and => emit .andps true
  | .ann => emit .andnps false
  | .orr => emit .orps true
  | .xor => emit .xorps true
  | _ => .fail (.unsupported (.logic op))

def selectNot (cfg : Config) (dst src : Reg) : Selection Unit := do
  let d ← .check (vectorNum dst)
  let s ← .check (vectorNum src)
  .emitAll (setAll cfg tmp ++ op3 cfg .xorps (wide cfg) true d s (.reg tmp) [])

/-- Whether the encoding of an operation lets its sources change places. A float minimum or maximum
gives its second source where a value is not a number, so it does not. -/
def exchangeable (op : Op) (e : Elem) : Bool :=
  op.commutative && !(e.isFloat && (op == .min || op == .max))

/-- A two-source operation, as it stands or expanded. -/
def selectBinary (cfg : Config) (op : Op) (e : Elem) (dst s1 : Reg) (s2 : Operand)
    (imm : List UInt8) : Selection Unit := do
  let d ← .check (vectorNum dst)
  let x ← .check (vectorNum s1)
  let y ← .check (vectorSource s2)
  let p ← .check (planOf cfg op e)
  if p.unit = .none then
    .emitAll (op3 cfg (nativeForm op e) (wide cfg) (exchangeable op e) d x y imm)
  else expand cfg p op e (nativeForm op e) d x y

def selectCompare (cfg : Config) (c : Op) (e : Elem) (dst s1 : Reg) (s2 : Operand) :
    Selection Unit :=
  if nativeCompare c e then
    selectBinary cfg c e dst s1 s2 (if e.isFloat then [floatPredicate c] else [])
  else .fail (.unsupported (.direct c e))

/-- A shift by one count, which is taken modulo the lane width. -/
def selectShift (cfg : Config) (op : Op) (e : Elem) (dst src : Reg) (count : Operand) :
    Selection Unit := do
  let d ← .check (vectorNum dst)
  let s ← .check (vectorNum src)
  let p ← .check (planOf cfg op e)
  match count with
  | .imm i =>
    let n := UInt8.ofInt i.value &&& countMask e
    if p.unit = .none then .emitAll (shiftImm cfg op e d s n)
    else expandShift cfg p op e d s (.imm n)
  | .mem m =>
    .check (checkVectorMem m)
    if p.unit = .none then
      .emitAll ([.push rcx] ++ loadCount e m ++ [op2 cfg .movd false tmp (.reg rcx), .pop rcx]
        ++ op3 cfg (nativeForm op e) (wide cfg) false d s (.reg tmp) [])
    else expandShift cfg p op e d s (.mem m)
  | .reg r => .fail (.operandKind (.shiftCount (.reg r)))

/-- A shift with a count for each lane. Counts are masked in the temporary: all bits set, shifted
right until the mask is left, and the counts. -/
def selectShiftEach (cfg : Config) (op : Op) (e : Elem) (dst src : Reg) (counts : Operand) :
    Selection Unit := do
  let d ← .check (vectorNum dst)
  let s ← .check (vectorNum src)
  let y ← .check (vectorSource counts)
  let p ← .check (planOf cfg op e)
  if p.unit = .none then
    let long := wide cfg
    let (group, n) := if e.bits = 64 then (Form.shiftGroup 64, 58) else (Form.shiftGroup 32, 27)
    .emitAll (setAll cfg tmp ++ [.vex group long 2 tmp (.reg tmp) [n],
      .vex .pand long tmp tmp y [], .vex (nativeForm op e) long d s (.reg tmp) []])
  else expand cfg p op e .blank d s y

/-- Copies the bytes whose mask byte has its top bit set. The lanes of a comparison are uniform, so
whole lanes are copied. -/
def selectMerge (cfg : Config) (dst : Reg) (src : Operand) (mask : Reg) : Selection Unit := do
  let d ← .check (vectorNum dst)
  let m ← .check (vectorNum mask)
  let x ← .check (vectorSource src)
  let long := wide cfg
  if x = .reg d then .emitAll []
  else if vexed cfg then
    if blends cfg then .emit (.vex .vpblendvb long d d x [UInt8.ofNat (m.val * 16)])
    else .emitAll [.vex .andnps long tmp m (.reg d) [], .vex .andps long d m x [],
      .vex .orps long d d (.reg tmp) []]
  else if blends cfg && m == 0 then .emit (.legacy .pblendvb d x [])
  else
    .emitAll (copy cfg false tmp m ++ [.legacy .andnps tmp (.reg d) []] ++ copy cfg false d m
      ++ (if x = .reg m then [] else [.legacy .andps d x []])
      ++ [.legacy .orps d (.reg tmp) []])

/-- Jumps on the top bits of the bytes of a vector. Where vectors of 32 bytes lack integer forms the
upper half is folded into the lower one first. -/
def selectMaskJump (cfg : Config) (src : Reg) (cond : MaskCond) (target : LabelRef) :
    Selection Unit := do
  let s ← .check (vectorNum src)
  let fold := floatOnly cfg
  let join : Form := if cond = .full then .pand else .por
  if fold then
    .emitAll [.vex .vextractf128 true s 0 (.reg tmp) [1], .vex join false tmp tmp (.reg s) []]
  let long := wide cfg && !fold
  .emitAll [.push rax, op2 cfg .pmovmskb long rax (.reg (if fold then tmp else s)),
    match cond with
    | .none => gpRegReg 0x85 false rax rax
    | .full => .cmpImm (if long then 0xFFFFFFFF else 0xFFFF),
    .pop rax, .jcc 0x4 target]

/-- Moves a base value; immediates are sign-extended from 32 bits. -/
def selectMoveBase (cfg : Config) (dst src : Operand) : Selection Unit :=
  let w := base64 cfg
  match dst with
  | .reg r => do
    let d ← .check (baseNum r)
    match src with
    | .reg s =>
      let n ← .check (baseNum s)
      if n = d then .emitAll [] else .emit (gpRegReg 0x89 w d n)
    | .imm i =>
      let v := UInt32.ofInt i.signed
      if w then .emit (.legacy (.one 0xC7 true) 0 (.reg d) (word32 v))
      else .emit (.movImm d v)
    | .mem m => .emit (.legacy (.one 0x8B w) d (.mem m) [])
  | .mem m =>
    match src with
    | .reg s => do
      let n ← .check (baseNum s)
      .emit (.legacy (.one 0x89 w) n (.mem m) [])
    | _ => .fail (.operandKind .storeSource)
  | .imm i => .fail (.operandKind (.operand (.imm i)))

/-- The opcodes of a general operation: into a register or memory, from a register or memory, and the
extension in the group with an immediate. -/
structure Alu where
  into : UInt8
  outOf : UInt8
  digit : RegNum
deriving Repr, DecidableEq

namespace Alu

def cmp : Alu := ⟨0x39, 0x3B, 7⟩

/-- The opcodes of a base operation. -/
def ofOp? : Op → Option Alu
  | .add => some ⟨0x01, 0x03, 0⟩
  | .sub => some ⟨0x29, 0x2B, 5⟩
  | .and => some ⟨0x21, 0x23, 4⟩
  | .orr => some ⟨0x09, 0x0B, 1⟩
  | .xor => some ⟨0x31, 0x33, 6⟩
  | _ => none

end Alu

/-- A general operation on a register and any source; immediates take the short form where they
fit a byte. -/
def selectAlu (cfg : Config) (a : Alu) (d : RegNum) (src : Operand) : Selection Unit :=
  let w := base64 cfg
  match src with
  | .reg s => do
    let n ← .check (baseNum s)
    .emit (gpRegReg a.into w d n)
  | .imm i =>
    let v := i.signed
    if fitsByte v then .emit (gpByte w a.digit d (UInt8.ofInt v))
    else .emit (.legacy (.one 0x81 w) a.digit (.reg d) (word32 (UInt32.ofInt v)))
  | .mem m => .emit (.legacy (.one a.outOf w) d (.mem m) [])

def selectArithBase (cfg : Config) (op : Op) (dst : Reg) (src : Operand) : Selection Unit := do
  let d ← .check (baseNum dst)
  match Alu.ofOp? op with
  | some a => selectAlu cfg a d src
  | none => .fail (.unsupported (.base op))

def selectShiftBase (cfg : Config) (op : Op) (signed : Bool) (dst : Reg) (count : Imm) :
    Selection Unit := do
  let d ← .check (baseNum dst)
  let n := UInt8.ofInt count.value &&& UInt8.ofInt ((cfg.baseBits : Int) - 1)
  let emit (digit : RegNum) : Selection Unit :=
    .emit (.legacy (.one 0xC1 (base64 cfg)) digit (.reg d) [n])
  match op with
  | .shl => emit 4
  | .shr => emit (if signed then 7 else 5)
  | _ => .fail (.unsupported (.base op))

/-- The condition code of a condition. -/
def conditionCode? : Cond → Option UInt8
  | .eq => some 0x4
  | .ne => some 0x5
  | .ltu => some 0x2
  | .leu => some 0x6
  | .gtu => some 0x7
  | .geu => some 0x3
  | .lts => some 0xC
  | .les => some 0xE
  | .gts => some 0xF
  | .ges => some 0xD
  | .other _ => none

def selectCompareJump (cfg : Config) (c : Cond) (x : Reg) (y : Operand) (target : LabelRef) :
    Selection Unit := do
  let d ← .check (baseNum x)
  match conditionCode? c with
  | some cc => do
    selectAlu cfg .cmp d y
    .emit (.jcc cc target)
  | none => .fail (.unsupported (.condition c))

/-- The instructions of a primitive; binding a label takes none. -/
def select (cfg : Config) : Primitive → Selection Unit
  | .move dst src => selectMove cfg dst src
  | .logic op dst s1 s2 => selectLogic cfg op dst s1 s2
  | .not dst src => selectNot cfg dst src
  | .arith op e dst s1 s2 => selectBinary cfg op e dst s1 s2 []
  | .shift op e dst src count => selectShift cfg op e dst src count
  | .shiftEach op e dst src counts => selectShiftEach cfg op e dst src counts
  | .compare c e dst s1 s2 => selectCompare cfg c e dst s1 s2
  | .merge dst src mask => selectMerge cfg dst src mask
  | .maskJump src cond target => selectMaskJump cfg src cond target
  | .moveBase dst src => selectMoveBase cfg dst src
  | .arithBase op dst src => selectArithBase cfg op dst src
  | .shiftBase op signed dst count => selectShiftBase cfg op signed dst count
  | .compareJump c x y target => selectCompareJump cfg c x y target
  | .jump target => .emit (.jmp target)
  | .bind _ => .emitAll []

end LaneAsm.X86
