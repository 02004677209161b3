import LaneAsm.Op

/-!
Plans: how an operation that a target cannot encode at full width is split into narrow steps.
-/
namespace LaneAsm

/-- The narrow step of a plan. `other` stands for the step numbers without a meaning. -/
inductive StepUnit where
  /-- The operation is encoded as it stands. -/
  | none
  /-- Vector steps of sixteen bytes. -/
  | vector
  /-- One lane for each step, through base registers. -/
  | scalar
  | other (code : UInt8)
deriving Repr, DecidableEq, Inhabited

namespace StepUnit

/-- The unit of a number. -/
def ofCode (code : UInt8) : StepUnit :=
  match code.toNat with
  | 0 => .none
  | 1 => .vector
  | 2 => .scalar
  | _ => .other code

def text : StepUnit → String
  | .vector => "vector128"
  | .scalar => "scalar"
  | _ => "none"

end StepUnit

/-- A plan splits `wide` bytes into steps of `narrow` bytes. -/
structure Plan where
  unit : StepUnit
  wide : Int
  narrow : Int
deriving Repr, DecidableEq, Inhabited

namespace Plan

/-- The number of steps, as a number of 64 bits. -/
def steps (p : Plan) : Int :=
  if p.narrow = 0 then 0 else (p.wide.tdiv p.narrow).bmod (2 ^ 64)

def text (p : Plan) : String :=
  p.unit.text ++ " " ++ toString p.steps ++ "x" ++ toString p.narrow

end Plan

/-- What a plan depends on: the operation, the element type, the level and the register width. -/
structure PlanKey where
  op : Op
  elem : Elem
  level : Int
  width : Int
deriving Repr, DecidableEq, Inhabited

end LaneAsm
