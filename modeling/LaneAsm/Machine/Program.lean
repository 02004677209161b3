import LaneAsm.Backend

/-!
Programs for the reference machine: primitives recorded as they are issued, with the places that
labels are bound to. The recording backend checks of a primitive only what recording it needs.
-/
namespace LaneAsm

/-- A recorded program. -/
structure Program where
  steps : Array Primitive
  /-- The number of the step that follows each bound label. -/
  labels : List (LabelRef × Nat)
  /-- The labels that jumps refer to, the first first. -/
  targets : Array LabelRef
  /-- The number of the next label to be made. -/
  nextLabel : Nat
deriving Repr, DecidableEq, Inhabited

/-- What a recording backend does without. -/
structure Limits where
  /-- Equality is the only comparator on integers. -/
  equalityOnly : Bool
  /-- The joined complements have to be put together. -/
  noNegated : Bool
deriving Repr, DecidableEq, Inhabited

namespace Program

/-- The program with nothing in it. -/
def empty : Program := ⟨#[], [], #[], 0⟩

/-- The jump target of a primitive. -/
def target? : Primitive → Option LabelRef
  | .maskJump _ _ l | .compareJump _ _ _ l | .jump l => some l
  | _ => none

/-- Records a primitive. -/
def record (p : Program) (x : Primitive) : Program :=
  { p with
    steps := p.steps.push x
    targets := match target? x with
      | some l => p.targets.push l
      | none => p.targets }

/-- Binds a label to the next step. A missing label has no name to report a second time. -/
def bind (p : Program) (l : LabelRef) : Except Fault Program :=
  match p.labels.lookup l with
  | none => .ok { p with labels := (l, p.steps.size) :: p.labels }
  | some _ =>
    match l with
    | some l => Fault.fail (.boundTwice l.name)
    | none => .error .trap

/-- The comparators that are recorded as they stand. -/
def nativeCompare (limits : Limits) (c : Op) (e : Elem) : Bool :=
  if limits.equalityOnly && !e.isFloat then c == .ceq else c.isCompare && c.applies e

/-- How an operation is recorded. -/
def supports (limits : Limits) (op : Op) (e : Elem) : Support :=
  if limits.noNegated && (op == .ann || op == .orn) then .fallback
  else if op.isLogic || op == .mov || op == .mmv || op == .mkj then .native
  else if !op.applies e then .unsupported
  else if op.isCompare && !nativeCompare limits op e then .derived
  else .native

/-- Whether an operation has a base form. -/
def baseOp : Op → Bool
  | .add | .sub | .and | .orr | .xor => true
  | _ => false

/-- A move has a register to write to, or memory and a register to read from. -/
def checkMove (dst src : Operand) : Except Error Unit :=
  match dst, src with
  | .reg _, _ => .ok ()
  | .mem _, .reg _ => .ok ()
  | .mem _, src => Error.fail (.operandKind (.storeFrom src))
  | .imm i, _ => Error.fail (.operandKind (.operand (.imm i)))

/-- What has to hold of a primitive for it to be recorded. -/
def check (limits : Limits) : Primitive → Except Error Unit
  | .move dst src | .moveBase dst src => checkMove dst src
  | .logic op _ _ _ =>
    if op.isLogic && op != .not then .ok () else Error.fail (.unsupported (.binaryLogic op))
  | .arith op e _ _ _ => if op.applies e then .ok () else Error.fail (.element op e)
  | .compare c e _ _ _ =>
    if nativeCompare limits c e then .ok () else Error.fail (.unsupported (.derived c e))
  | .arithBase op _ _ => if baseOp op then .ok () else Error.fail (.unsupported (.base op))
  | _ => .ok ()

/-- Checks a primitive and records it, or binds a label. -/
def issue (limits : Limits) (x : Primitive) (p : Program) : Except Fault Unit × Program :=
  match x with
  | .bind l =>
    match p.bind l with
    | .ok p => (.ok (), p)
    | .error f => (.error f, p)
  | x =>
    match check limits x with
    | .ok () => (.ok (), p.record x)
    | .error e => (.error (.error e), p)

/-- The fault of the first jump target that was never bound. -/
def unbound (p : Program) : List LabelRef → Except Fault Unit
  | [] => .ok ()
  | l :: ls =>
    match p.labels.lookup l, l with
    | some _, _ => unbound p ls
    | none, some l => Fault.fail (.neverBound l.name)
    | none, none => .error .trap

/-- The backend that records programs. A finished program has no bytes. -/
def backend (cfg : Config) (limits : Limits) : Backend Program where
  config := cfg
  supports := supports limits
  nativeCompare := nativeCompare limits
  size p := p.steps.size
  newLabel name p := (⟨name, p.nextLabel⟩, { p with nextLabel := p.nextLabel + 1 })
  issue := issue limits
  finish p := ((p.unbound p.targets.toList).map fun _ => #[], p)

end Program

end LaneAsm
