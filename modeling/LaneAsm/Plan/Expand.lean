import LaneAsm.Operand.Check
import LaneAsm.Target

/-!
The steps of a plan, plans remembered by key, and the scratch slots that steps work in.
-/
namespace LaneAsm

/-- The steps of a plan: the number of each and its byte offset. -/
def Plan.groups (p : Plan) : Except Error (List (Nat × Int)) :=
  if p.unit = .none ∨ p.narrow ≤ 0 ∨ p.wide.tmod p.narrow ≠ 0 then Error.fail (.badPlan p)
  else .ok ((List.range p.steps.toNat).map fun i => (i, i * p.narrow))

/-- Plans remembered by key. A rule gives the plan of a key and whether the operation can be
expressed at all; it is asked once for each key. -/
structure PlanTable where
  rule : PlanKey → Plan × Bool
  memo : List (PlanKey × (Plan × Bool))

namespace PlanTable

/-- The table of a rule, with nothing remembered. -/
def ofRule (rule : PlanKey → Plan × Bool) : PlanTable := ⟨rule, []⟩

/-- The plan of a key. -/
def lookup (t : PlanTable) (k : PlanKey) : (Plan × Bool) × PlanTable :=
  match t.memo.lookup k with
  | some found => (found, t)
  | none =>
    let found := t.rule k
    (found, { t with memo := (k, found) :: t.memo })

end PlanTable

/-- The two memory slots in which a plan stages its sources, one physical register each. -/
structure Slots where
  a : Mem
  b : Mem
deriving Repr, DecidableEq

/-- The scratch slots of a target. -/
def Config.slots (cfg : Config) : Slots :=
  let base := Reg.base cfg.scratchBase
  ⟨.plain base ⟨cfg.scratchOffset, .dv⟩,
    .plain base ⟨wrap64 (cfg.scratchOffset + cfg.physBytes), .dv⟩⟩

/-- A slot some bytes further on. The scratch area lies inside the widest window, so the sum needs
no check. -/
def Mem.advance (m : Mem) (offset : Int) : Mem :=
  .plain m.base ⟨wrap64 (m.disp.value + offset), .dv⟩

end LaneAsm
