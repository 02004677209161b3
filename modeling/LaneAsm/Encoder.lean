import LaneAsm.Listing.Assemble
import LaneAsm.Msa.Backend
import LaneAsm.X86.Backend

/-!
The encoder of a target, and listings encoded by it.
-/
namespace LaneAsm

/-- The backend that encodes for a target, if there is one and the target passes its checks. -/
def encoder? (cfg : Config) : Except Error (Backend Buffer) :=
  match cfg.isa with
  | .x86 => X86.backend? cfg
  | .mips32 | .mips64 => Msa.backend? cfg
  | .other _ => Error.fail (.targetConfig (.noEncoder cfg.name))

/-- The code of a listing for a target. -/
def Listing.encode (cfg : Config) (l : Listing) : Except Fault Bytes := do
  let b ← Fault.lift (encoder? cfg)
  match l.assemble b (.start Buffer.empty) with
  | (.error f, _) => throw f
  | (.ok (), a) => (a.code b).1

/-- Reads and encodes a listing for a target. -/
def encode (cfg : Config) (src : RawText) : Except Fault Bytes := do
  (← Listing.parse src).encode cfg

end LaneAsm
