import LaneAsm.Condition
import LaneAsm.Op
import LaneAsm.Operand.Basic

/-!
Portable instructions, as data. They name logical registers, and labels by whatever stands for a
label at the stage at hand: a name in a listing, a reference once labels are made.
-/
namespace LaneAsm

/-- A portable instruction over labels of type `L`. -/
inductive Instr (L : Type) where
  /-- Copies a vector between registers or between a register and memory. -/
  | mov (dst src : Operand)
  /-- An operation on bits. -/
  | logic (op : Op) (dst s1 : Reg) (s2 : Operand)
  | not (dst src : Reg)
  | arith (op : Op) (e : Elem) (dst s1 : Reg) (s2 : Operand)
  /-- Shifts every lane by one count. -/
  | shift (op : Op) (e : Elem) (dst src : Reg) (count : Operand)
  /-- Shifts every lane by a count of its own. -/
  | shiftEach (op : Op) (e : Elem) (dst src : Reg) (counts : Operand)
  | compare (op : Op) (e : Elem) (dst s1 : Reg) (s2 : Operand)
  /-- Copies the lanes that the mask register selects. -/
  | merge (dst : Reg) (src : Operand)
  | maskJump (src : Reg) (cond : MaskCond) (target : L)
  | movBase (dst src : Operand)
  | arithBase (op : Op) (dst : Reg) (src : Operand)
  | shiftBase (op : Op) (signed : Bool) (dst : Reg) (count : Imm)
  | compareJump (x : Reg) (y : Operand) (cond : Cond) (target : L)
  | jump (target : L)
  /-- Binds a label to the place of the next instruction. -/
  | bind (label : L)
  /-- An operation that has no form with three operands. -/
  | unformed (op : Op)
deriving Repr, DecidableEq, Inhabited

namespace Instr

variable {L : Type}

/-- The name of an instruction, which errors report. -/
def name : Instr L → String
  | .mov _ _ => "mov"
  | .logic op _ _ _ => op.name
  | .not _ _ => "not"
  | .arith op e _ _ _ => op.on e
  | .shift op e _ _ _ => op.on e
  | .shiftEach op e _ _ _ => op.on e
  | .compare op e _ _ _ => op.on e
  | .merge _ _ => "mmv"
  | .maskJump _ _ _ => "mkj"
  | .movBase _ _ => "movxx"
  | .arithBase op _ _ => op.name ++ "xx"
  | .shiftBase op _ _ _ => op.name ++ "xx"
  | .compareJump _ _ _ _ => "cmjxx"
  | .jump _ => "jmpxx"
  | .bind _ => "label"
  | .unformed op => op.name

/-- The instruction of an operation with a destination and two sources; the second source is the
count of a shift, and a complement leaves it out. -/
def ofOp (op : Op) (e : Elem) (dst s1 : Reg) (s2 : Operand) : Instr L :=
  match op with
  | .and | .ann | .orr | .orn | .xor => .logic op dst s1 s2
  | .not => .not dst s1
  | .add | .sub | .mul | .div | .ads | .sbs | .min | .max => .arith op e dst s1 s2
  | .shl | .shr => .shift op e dst s1 s2
  | .svl | .svr => .shiftEach op e dst s1 s2
  | .ceq | .cne | .clt | .cle | .cgt | .cge => .compare op e dst s1 s2
  | _ => .unformed op

/-- The label an instruction refers to. -/
def label? : Instr L → Option L
  | .maskJump _ _ l | .compareJump _ _ _ l | .jump l | .bind l => some l
  | _ => none

/-- The instruction with its label replaced. -/
def mapLabel {M : Type} (f : L → M) : Instr L → Instr M
  | .mov dst src => .mov dst src
  | .logic op dst s1 s2 => .logic op dst s1 s2
  | .not dst src => .not dst src
  | .arith op e dst s1 s2 => .arith op e dst s1 s2
  | .shift op e dst src count => .shift op e dst src count
  | .shiftEach op e dst src counts => .shiftEach op e dst src counts
  | .compare op e dst s1 s2 => .compare op e dst s1 s2
  | .merge dst src => .merge dst src
  | .maskJump src cond l => .maskJump src cond (f l)
  | .movBase dst src => .movBase dst src
  | .arithBase op dst src => .arithBase op dst src
  | .shiftBase op signed dst count => .shiftBase op signed dst count
  | .compareJump x y cond l => .compareJump x y cond (f l)
  | .jump l => .jump (f l)
  | .bind l => .bind (f l)
  | .unformed op => .unformed op

end Instr

end LaneAsm
