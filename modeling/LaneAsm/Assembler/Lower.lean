import LaneAsm.Assembler.Route
import LaneAsm.Emission
import LaneAsm.Instr
import LaneAsm.Operand.Check

/-!
From portable instructions to primitives: operands are checked, logical registers become physical
ones half by half, and operations a backend lacks are put together from those it has.
-/
namespace LaneAsm

namespace Config

/-- A vector register is usable. -/
def checkVector (cfg : Config) (r : Reg) : Except Error Unit :=
  if r.kind ≠ .vector then Error.fail (.operandKind (.notVector r))
  else if r.index < 0 ∨ cfg.vectorRegs ≤ r.index then
    Error.fail (.registerUnusable r cfg.vectorRegs)
  else .ok ()

/-- A base register is one of the sixteen. -/
def checkBase (r : Reg) : Except Error Unit :=
  if r.kind ≠ .base then Error.fail (.operandKind (.notBase r))
  else if r.index < 0 ∨ 15 < r.index then Error.fail (.registerOutside r)
  else .ok ()

/-- A memory operand is well formed and is not indexed by the stack pointer. -/
def checkMem (m : Mem) : Except Error Unit := do
  m.check
  checkBase m.base
  match m.index with
  | some index =>
    if index = Reg.stack then Error.fail (.operandKind (.cannotIndex index))
    else checkBase index
  | none => .ok ()

/-- A source of a vector operation is a vector register or memory. -/
def checkVectorSource (cfg : Config) : Operand → Except Error Unit
  | .reg r => cfg.checkVector r
  | .mem m => checkMem m
  | .imm i => Error.fail (.operandKind (.needsRegisterOrMemory (.imm i)))

/-- A source of a base operation is a base register, memory or an immediate. -/
def checkBaseSource : Operand → Except Error Unit
  | .reg r => checkBase r
  | .mem m => checkMem m
  | .imm i => i.check

/-- The destination and the first source are vector registers and the second source fits them. -/
def checkSources (cfg : Config) (dst s1 : Reg) (s2 : Operand) : Except Error Unit := do
  cfg.checkVector dst
  cfg.checkVector s1
  cfg.checkVectorSource s2

/-- A move has a register or memory on either side, but not memory on both. -/
def checkMove (register : Reg → Except Error Unit) (source : Operand → Except Error Unit)
    (dst src : Operand) : Except Error Unit :=
  match dst with
  | .reg d => do
    register d
    source src
  | .mem d => do
    checkMem d
    match src with
    | .reg s => register s
    | _ => Error.fail (.operandKind .storeSource)
  | .imm i => Error.fail (.operandKind (.operand (.imm i)))

/-- The physical register of half `h` of a vector register. -/
def phys (cfg : Config) (r : Reg) (h : Nat) : Reg := .xmm (cfg.physical r.index h)

/-- The physical register of half `h` of the temporary. -/
def temp (cfg : Config) (h : Nat) : Reg := .xmm (cfg.physical cfg.tempReg h)

/-- Half `h` of an operand. The upper half of a memory operand lies one physical register further
on. -/
def half (cfg : Config) (o : Operand) (h : Nat) : Except Error Operand :=
  match o with
  | .reg r => .ok (.reg (if r.kind = .vector then cfg.phys r h else r))
  | .mem m => if h = 0 then .ok (.mem m) else (m.offset (h * cfg.physBytes)).map .mem
  | .imm i => .ok (.imm i)

end Config

/-- Primitives produced from an instruction. -/
abbrev Lowering := Emission Primitive

namespace Capability

/-- An operation is defined on an element type and the backend knows it. -/
def checkSupported (cap : Capability) (op : Op) (e : Elem) : Except Error Unit :=
  if !op.applies e then Error.fail (.element op e)
  else if cap.supports op e = .unsupported then
    Error.fail (.unsupported (.operation op e cap.config.name))
  else .ok ()

/-- The work for each half in turn. -/
def eachHalf (cap : Capability) (f : Nat → Lowering Unit) : Lowering Unit :=
  Emission.each f (List.range cap.config.halves)

/-- A complement of the first source followed by an operation on bits, for backends without the
joined operations. The complement goes to the temporary where the destination is also the second
source. -/
def complementThen (op : Op) (d x : Reg) (y : Operand) (t : Reg) : List Primitive :=
  let plain : Op := if op = .orn then .orr else .and
  if y = .reg d then [.not t x, .logic plain d t y] else [.not d x, .logic plain d d y]

/-- The primitives of a portable instruction. -/
def lower (cap : Capability) (i : Instr LabelRef) : Lowering Unit :=
  let cfg := cap.config
  match i with
  | .mov dst src => do
    .check (Config.checkMove cfg.checkVector cfg.checkVectorSource dst src)
    cap.eachHalf fun h => do
      let d ← .check (cfg.half dst h)
      let s ← .check (cfg.half src h)
      .emit (.move d s)
  | .logic op dst s1 s2 => do
    .check (cfg.checkSources dst s1 s2)
    cap.eachHalf fun h => do
      let y ← .check (cfg.half s2 h)
      let d := cfg.phys dst h
      let x := cfg.phys s1 h
      if cap.supports op .u32 = .native then .emit (.logic op d x y)
      else .emitAll (complementThen op d x y (cfg.temp h))
  | .not dst src => do
    .check (cfg.checkVector dst)
    .check (cfg.checkVector src)
    cap.eachHalf fun h => .emit (.not (cfg.phys dst h) (cfg.phys src h))
  | .arith op e dst s1 s2 => do
    .check (cap.checkSupported op e)
    .check (cfg.checkSources dst s1 s2)
    cap.eachHalf fun h => do
      let y ← .check (cfg.half s2 h)
      .emit (.arith op e (cfg.phys dst h) (cfg.phys s1 h) y)
  | .shift op e dst src count => do
    .check (cap.checkSupported op e)
    .check (cfg.checkVector dst)
    .check (cfg.checkVector src)
    .check (match count with
      | .imm i => i.check
      | .mem m => Config.checkMem m
      | .reg _ => Error.fail (.operandKind .shiftCountKind))
    cap.eachHalf fun h => .emit (.shift op e (cfg.phys dst h) (cfg.phys src h) count)
  | .shiftEach op e dst src counts => do
    .check (cap.checkSupported op e)
    .check (cfg.checkSources dst src counts)
    cap.eachHalf fun h => do
      let c ← .check (cfg.half counts h)
      .emit (.shiftEach op e (cfg.phys dst h) (cfg.phys src h) c)
  | .compare c e dst s1 s2 => do
    .check (cfg.checkSources dst s1 s2)
    let r := cap.route c e
    if r = .none then .fail (.unsupported (.operation c e cfg.name))
    else
      cap.eachHalf fun h => do
        let y ← .check (cfg.half s2 h)
        .emitAll (r.primitives c e (cfg.phys dst h) (cfg.phys s1 h) y (cfg.temp h))
  | .merge dst src => do
    .check (cfg.checkVector dst)
    .check (cfg.checkVectorSource src)
    cap.eachHalf fun h => do
      let s ← .check (cfg.half src h)
      .emit (.merge (cfg.phys dst h) s (cfg.phys Reg.mask h))
  | .maskJump src cond target => do
    .check (cfg.checkVector src)
    if cfg.halves = 1 then .emit (.maskJump (cfg.phys src 0) cond target)
    else
      let join : Op := if cond = .full then .and else .orr
      .emitAll [.logic join (cfg.temp 0) (cfg.phys src 0) (cfg.phys src 1),
        .maskJump (cfg.temp 0) cond target]
  | .movBase dst src => do
    .check (Config.checkMove Config.checkBase Config.checkBaseSource dst src)
    .emit (.moveBase dst src)
  | .arithBase op dst src => do
    .check (Config.checkBase dst)
    .check (Config.checkBaseSource src)
    .emit (.arithBase op dst src)
  | .shiftBase op signed dst count => do
    .check (Config.checkBase dst)
    .check count.check
    .emit (.shiftBase op signed dst count)
  | .compareJump x y cond target => do
    .check (Config.checkBase x)
    .check (Config.checkBaseSource y)
    match cond with
    | .other _ => .fail (.operandKind (.condition cond))
    | cond => .emit (.compareJump cond x y target)
  | .jump target => .emit (.jump target)
  | .bind label => .emit (.bind label)
  | .unformed op => .fail (.mnemonic (.threeOperands op))

end Capability

end LaneAsm
