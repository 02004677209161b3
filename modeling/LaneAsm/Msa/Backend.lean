import LaneAsm.Backend
import LaneAsm.Msa.Select

/-!
The backend for MIPS with the MSA vector unit.
-/
namespace LaneAsm.Msa

/-- How an operation is encoded: all are native but the joined complements and the comparators
without an encoding. -/
def supports (op : Op) (e : Elem) : Support :=
  match op with
  | .ann | .orn => .derived
  | .mov | .not | .mkj | .mmv | .and | .orr | .xor => .native
  | op =>
    if !op.applies e then .unsupported
    else if op.isCompare && !nativeCompare op e then .derived
    else .native

/-- What the backend of a target can do. -/
def capability (cfg : Config) : Capability := ⟨cfg, supports, nativeCompare⟩

/-- Appends the instructions of a primitive to a buffer, as far as they could be selected. -/
def issue (cfg : Config) (p : Primitive) (b : Buffer) : Except Fault Unit × Buffer :=
  match p with
  | .bind l =>
    match b.bind l with
    | .ok b => (.ok (), b)
    | .error e => (.error (.error e), b)
  | p =>
    let selected := select cfg p
    (selected.outcome, selected.items.foldl Item.append b)

/-- The backend of a target. -/
def backend (cfg : Config) : Backend Buffer where
  toCapability := capability cfg
  size := Buffer.size
  newLabel name b := b.newLabel name
  issue := issue cfg
  finish := Buffer.finish

/-- The backend of a target that passes its own checks. -/
def backend? (cfg : Config) : Except Error (Backend Buffer) :=
  if !cfg.isa.isMips then Error.fail (.targetConfig (.notMips cfg.name))
  else match cfg.invalid with
    | some text => .error (.plain text)
    | none => .ok (backend cfg)

end LaneAsm.Msa
