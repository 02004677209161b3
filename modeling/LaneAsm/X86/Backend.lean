import LaneAsm.Backend
import LaneAsm.X86.Select

/-!
The backend for x86-64.
-/
namespace LaneAsm.X86

/-- How an operation is encoded on a target. -/
def supports (cfg : Config) (op : Op) (e : Elem) : Support :=
  match op with
  | .mov | .not | .mkj | .and | .ann | .orr | .xor => .native
  | .orn => .derived
  | .mmv => if blends cfg then .native else .derived
  | op =>
    if !op.applies e then .unsupported
    else if op.isCompare && !nativeCompare op e then .derived
    else match planOf? cfg op e with
      | none => .unsupported
      | some p => if p.unit = .none then .native else .fallback

/-- What the backend of a target can do. -/
def capability (cfg : Config) : Capability := ⟨cfg, supports cfg, nativeCompare⟩

/-- Appends the instructions of a primitive to a buffer, as far as they could be selected. -/
def issue (cfg : Config) (p : Primitive) (b : Buffer) : Except Fault Unit × Buffer :=
  match p with
  | .bind l =>
    match b.bind l with
    | .ok b => (.ok (), b)
    | .error e => (.error (.error e), b)
  | p =>
    let selected := select cfg p
    (selected.outcome, selected.items.foldl (Insn.append cfg.shortAddress) b)

/-- The backend of a target. -/
def backend (cfg : Config) : Backend Buffer where
  toCapability := capability cfg
  size := Buffer.size
  newLabel name b := b.newLabel name
  issue := issue cfg
  finish := Buffer.finish

/-- The backend of a target that passes its own checks. -/
def backend? (cfg : Config) : Except Error (Backend Buffer) :=
  if cfg.isa ≠ .x86 then Error.fail (.targetConfig (.notX86 cfg.name))
  else match cfg.invalid with
    | some text => .error (.plain text)
    | none => .ok (backend cfg)

end LaneAsm.X86
