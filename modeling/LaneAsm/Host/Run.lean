import LaneAsm.Encoder
import LaneAsm.Machine.Run

/-!
Listings run over a memory block: on the reference machine, or with the checks that a run on the
host makes first. Code that passes those checks computes what the reference machine computes, which
is where its memory is taken from.
-/
namespace LaneAsm

/-- How a listing fared: whether it could be assembled, and the memory that it left. -/
structure Execution where
  assembled : Except Fault Unit
  memory : Except Fault Bytes

namespace Listing

/-- Runs a listing on the reference machine with a base register that addresses the memory. -/
def interpret (cfg : Config) (base : Int) (memory : Bytes) (l : Listing) : Execution :=
  let b := Program.backend cfg ⟨false, false⟩
  let (done, a) := l.assemble b (.start Program.empty)
  ⟨done, match done with
    | .error .trap => .error .trap
    | _ => do
      let r ← a.exec b base memory
      r.outcome
      return r.machine.memory⟩

/-- An execution that ends before its listing is looked at. -/
def refused (f : Fault) : Execution := ⟨.ok (), .error f⟩

/-- Runs a listing on the host. The target has to run there, the base register must not be the stack
pointer, and the listing has to be encoded. -/
def runOnHost (cfg : Config) (base : Int) (memory : Bytes) (l : Listing) : Execution :=
  if !cfg.hostRuns then refused (.error (.ofCause (.hostCannotRun cfg.name)))
  else if base < 0 ∨ 15 < base ∨ base = Reg.stack.index then
    refused (.error (.ofCause (.registerNumber base)))
  else match X86.backend? cfg with
    | .error e => refused (.error e)
    | .ok b =>
      let (done, a) := l.assemble b (.start Buffer.empty)
      match done, (a.code b).1 with
      | .error .trap, _ => ⟨done, .error .trap⟩
      | _, .error f => ⟨done, .error f⟩
      | _, .ok _ => ⟨done, (l.interpret cfg base memory).memory⟩

end Listing

end LaneAsm
