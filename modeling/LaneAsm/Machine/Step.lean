import LaneAsm.Machine.State
import LaneAsm.Primitive

/-!
Single steps of the reference machine: what each primitive does to the state, and where it jumps.
-/
namespace LaneAsm

/-- The name of a primitive in the report of a failing step. -/
def Primitive.stepName : Primitive → String
  | .move (.mem _) _ => "mov.st"
  | .move _ _ => "mov"
  | .logic op _ _ _ => op.name
  | .not _ _ => "not"
  | .arith op _ _ _ _ => op.name
  | .shift op _ _ _ _ => op.name
  | .shiftEach op _ _ _ _ => op.name
  | .compare op _ _ _ _ => op.name
  | .merge _ _ _ => "mmv"
  | .maskJump _ _ _ => "mkj"
  | .moveBase (.mem _) _ => "movxx.st"
  | .moveBase _ _ => "movxx"
  | .arithBase op _ _ => op.name ++ "xx"
  | .shiftBase op _ _ _ => op.name ++ "xx"
  | .compareJump _ _ _ _ => "cmjxx"
  | .jump _ => "jmp"
  | .bind _ => "label"

/-- Whether a condition holds of two base values of some width. -/
def Cond.holds (c : Cond) (bits : Nat) (x y : UInt64) : Bool :=
  let sx := Lane.signExtend bits x
  let sy := Lane.signExtend bits y
  match c with
  | .eq => x == y
  | .ne => x != y
  | .ltu => x < y
  | .leu => x ≤ y
  | .gtu => y < x
  | .geu => y ≤ x
  | .lts => sx < sy
  | .les => sx ≤ sy
  | .gts => sy < sx
  | .ges => sy ≤ sx
  | .other _ => false

/-- Whether a condition holds of a mask. -/
def MaskCond.holds (c : MaskCond) (v : Bytes) : Bool :=
  match c with
  | .none => Lanes.maskNone v
  | .full => Lanes.maskFull v

namespace Machine

/-- The result of a base operation. -/
def baseResult (op : Op) (x y : UInt64) : UInt64 :=
  match op with
  | .add => x + y
  | .sub => x - y
  | .and => x &&& y
  | .orr => x ||| y
  | .xor => x ^^^ y
  | _ => 0

/-- A lanewise operation on a register and a source. -/
def binary (cfg : Config) (m : Machine) (op : Op) (e : Elem) (dst s1 : Reg) (s2 : Operand) :
    Except Fault Machine := do
  let y ← m.vectorOf cfg s2
  let x ← m.vector s1
  m.setVector dst (← orTrap (Lanes.eval? op e x y))

/-- The count of a shift. -/
def countOf (cfg : Config) (m : Machine) (e : Elem) (count : Operand) : Except Fault UInt64 :=
  match count with
  | .imm i => .ok (UInt64.ofInt i.value)
  | .mem x => do
    let raw ← m.load cfg x e.bytes
    orTrap (raw.lane? e 0)
  | .reg r => Fault.fail (.operandKind (.shiftCount (.reg r)))

/-- What a primitive that does not jump does. -/
def effect (cfg : Config) (m : Machine) : Primitive → Except Fault Machine
  | .move (.reg d) src => do m.setVector d (← m.vectorOf cfg src)
  | .move (.mem d) (.reg s) => do m.store cfg d (← m.vector s)
  | .logic op dst s1 s2 => m.binary cfg op .u8 dst s1 s2
  | .not dst src => do m.setVector dst (← orTrap (Lanes.eval? .not .u8 (← m.vector src) #[]))
  | .arith op e dst s1 s2 => m.binary cfg op e dst s1 s2
  | .shift op e dst src count => do
    let n ← m.countOf cfg e count
    m.setVector dst (← orTrap (Lanes.shift? op e (← m.vector src) n))
  | .shiftEach op e dst src counts => m.binary cfg op e dst src counts
  | .compare op e dst s1 s2 => m.binary cfg op e dst s1 s2
  | .merge dst src mask => do
    let s ← m.vectorOf cfg src
    m.setVector dst (← orTrap (Lanes.merge? (← m.vector dst) s (← m.vector mask)))
  | .moveBase (.reg d) src => do m.setBase d (← m.baseOf cfg src)
  | .moveBase (.mem d) (.reg s) => do
    let e := baseElem cfg
    let v ← orTrap ((Bytes.zeros e.bytes).setLane? e 0 (← m.base s))
    m.store cfg d v
  | .arithBase op dst src => do
    let y ← m.baseOf cfg src
    m.setBase dst (baseResult op (← m.base dst) y &&& baseMask cfg)
  | .shiftBase op signed dst count => do
    let e : Elem := ⟨cfg.baseBits, if signed then .signed else .unsigned⟩
    m.setBase dst (Lane.eval op e (← m.base dst) (UInt64.ofInt count.value))
  | _ => .ok m

/-- Where a primitive jumps to, if it does. A jump to a missing label goes nowhere. -/
def jumpOf (cfg : Config) (m : Machine) : Primitive → Except Fault LabelRef
  | .maskJump src cond target => do
    return if cond.holds (← m.vector src) then target else none
  | .compareJump cond x y target => do
    let rhs ← m.baseOf cfg y
    let lhs := (← m.base x) &&& baseMask cfg
    return if cond.holds cfg.baseBits lhs rhs then target else none
  | .jump target => .ok target
  | _ => .ok none

/-- One step: the state after it and the label it jumps to. -/
def step (cfg : Config) (m : Machine) (p : Primitive) : Except Fault (Machine × LabelRef) := do
  return (← m.effect cfg p, ← m.jumpOf cfg p)

end Machine

end LaneAsm
