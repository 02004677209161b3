import LaneAsm.Condition
import LaneAsm.Label
import LaneAsm.Op
import LaneAsm.Operand.Basic

/-!
Primitives: what the assembler asks of a backend. Vector registers are physical, and memory
operands address the half at hand.
-/
namespace LaneAsm

/-- One request to a backend. -/
inductive Primitive where
  | move (dst src : Operand)
  | logic (op : Op) (dst s1 : Reg) (s2 : Operand)
  | not (dst src : Reg)
  | arith (op : Op) (e : Elem) (dst s1 : Reg) (s2 : Operand)
  | shift (op : Op) (e : Elem) (dst src : Reg) (count : Operand)
  | shiftEach (op : Op) (e : Elem) (dst src : Reg) (counts : Operand)
  | compare (op : Op) (e : Elem) (dst s1 : Reg) (s2 : Operand)
  | merge (dst : Reg) (src : Operand) (mask : Reg)
  | maskJump (src : Reg) (cond : MaskCond) (target : LabelRef)
  | moveBase (dst src : Operand)
  | arithBase (op : Op) (dst : Reg) (src : Operand)
  | shiftBase (op : Op) (signed : Bool) (dst : Reg) (count : Imm)
  | compareJump (cond : Cond) (x : Reg) (y : Operand) (target : LabelRef)
  | jump (target : LabelRef)
  | bind (label : LabelRef)
deriving Repr, DecidableEq, Inhabited

/-- A primitive as a line: its name and its arguments. -/
def Primitive.text (p : Primitive) : String :=
  " ".intercalate <| match p with
    | .move dst src => ["Move", dst.text, src.text]
    | .logic op dst s1 s2 => ["Logic", op.name, dst.text, s1.text, s2.text]
    | .not dst src => ["Not", dst.text, src.text]
    | .arith op e dst s1 s2 => ["Arith", op.name, e.text, dst.text, s1.text, s2.text]
    | .shift op e dst src count => ["Shift", op.name, e.text, dst.text, src.text, count.text]
    | .shiftEach op e dst src counts =>
      ["ShiftVar", op.name, e.text, dst.text, src.text, counts.text]
    | .compare op e dst s1 s2 => ["Compare", op.name, e.text, dst.text, s1.text, s2.text]
    | .merge dst src mask => ["Merge", dst.text, src.text, mask.text]
    | .maskJump src cond target => ["MaskJump", src.text, cond.text, target.name.text]
    | .moveBase dst src => ["MoveBase", dst.text, src.text]
    | .arithBase op dst src => ["ArithBase", op.name, dst.text, src.text]
    | .shiftBase op signed dst count =>
      ["ShiftBase", op.name, if signed then "true" else "false", dst.text, count.text]
    | .compareJump cond x y target =>
      ["CompareJump", cond.text, x.text, y.text, target.name.text]
    | .jump target => ["Jump", target.name.text]
    | .bind label => ["Bind", label.name.text]

end LaneAsm
