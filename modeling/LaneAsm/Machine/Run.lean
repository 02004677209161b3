import LaneAsm.Assembler.Basic
import LaneAsm.Machine.Program
import LaneAsm.Machine.Step

/-!
Runs of recorded programs.
-/
namespace LaneAsm

/-- How a run ended: its outcome, the machine after it and the number of steps taken. -/
structure Run where
  outcome : Except Fault Unit
  machine : Machine
  steps : Nat

namespace Program

/-- The number of steps a run may take unless it is told otherwise. -/
def defaultLimit : Nat := 2 ^ 20

/-- Runs a program from step `pc` on, with `fuel` of its `limit` steps left. -/
def runFrom (cfg : Config) (p : Program) (limit : Nat) :
    (fuel pc : Nat) → Machine → Run
  | fuel, pc, m =>
    match p.steps[pc]? with
    | none => ⟨.ok (), m, limit - fuel⟩
    | some x =>
      match fuel with
      | 0 => ⟨Fault.fail (.stepLimit limit), m, limit⟩
      | fuel + 1 =>
        match m.step cfg x with
        | .error f => ⟨.error (f.within (.step pc x.stepName)), m, limit - fuel⟩
        | .ok (m, none) => runFrom cfg p limit fuel (pc + 1) m
        | .ok (m, some l) =>
          match p.labels.lookup (some l) with
          | some next => runFrom cfg p limit fuel next m
          | none => ⟨Fault.fail (.neverBound l.name), m, limit - fuel⟩

/-- Runs a program from its first step. -/
def run (cfg : Config) (p : Program) (limit : Nat) (m : Machine) : Run :=
  p.runFrom cfg limit limit 0 m

end Program

/-- Finishes an assembled program and runs it on a memory, every register at zero. Register number
`base` is the one that addresses the memory; it has to exist. -/
def Assembler.exec (b : Backend Program) (a : Assembler Program) (base : Int) (memory : Bytes) :
    Except Fault Run := do
  let _ ← (a.code b).1
  if base < 0 ∨ 32 ≤ base then throw .trap
  return a.state.run b.config Program.defaultLimit (.init b.config memory)

end LaneAsm
