import LaneAsm.X86.Sequence

/-!
Operations without an encoding at full width: sources are staged in scratch memory, combined there
group by group, and the result is loaded.
-/
namespace LaneAsm.X86

/-- Instructions selected for a primitive. -/
abbrev Selection := Emission Insn

/-- Stores the first source in the first slot and the second source in the second. -/
def stage (cfg : Config) (s1 : RegNum) (s2 : Rm) : List Insn :=
  let long := wide cfg
  store cfg long cfg.slots.a s1 :: match s2 with
    | .mem m => [load cfg long tmp m, store cfg long cfg.slots.b tmp]
    | .reg r => [store cfg long cfg.slots.b r]

/-- The groups of a plan in turn; `step` is given the offset of its group. -/
def eachGroup (p : Plan) (step : Int → Selection Unit) : Selection Unit := do
  let groups ← .check p.groups
  Emission.each (fun (_, offset) => step offset) groups

/-- Saves the two general registers around some work, whose end does not matter. -/
def aroundScalar (work : Selection Unit) : Selection Unit := do
  .emitAll [.push rax, .push rcx]
  work.andFinally [.pop rcx, .pop rax]

/-- A two-source operation through scratch memory. -/
def expand (cfg : Config) (p : Plan) (op : Op) (e : Elem) (f : Form) (dst s1 : RegNum) (s2 : Rm) :
    Selection Unit := do
  let slots := cfg.slots
  .emitAll (stage cfg s1 s2)
  match p.unit with
  | .vector =>
    eachGroup p fun offset =>
      let a := slots.a.advance offset
      .emitAll [load cfg false tmp a, .vex f false tmp tmp (.mem (slots.b.advance offset)) [],
        store cfg false a tmp]
  | .scalar =>
    aroundScalar <| eachGroup p fun offset => do
      let a := slots.a.advance offset
      .emitAll [loadLane e rax a, loadLane e rcx (slots.b.advance offset)]
      .emitAll (← .check (scalar op e))
      .emit (storeLane e a rax)
  | _ => .fail (.noFallback p)
  .emit (load cfg (wide cfg) dst slots.a)

/-- A shift count: an immediate, or the first lane of a memory operand. -/
inductive Count where
  | imm (n : UInt8)
  | mem (m : Mem)
deriving Repr, DecidableEq

/-- A shift by one count through scratch memory. A count from memory is masked, and parked in the
second slot where the steps are vectors. -/
def expandShift (cfg : Config) (p : Plan) (op : Op) (e : Elem) (dst src : RegNum) (count : Count) :
    Selection Unit := do
  let slots := cfg.slots
  .emit (store cfg (wide cfg) slots.a src)
  match p.unit with
  | .vector =>
    let shift : Insn := match count with
      | .imm n => .vex (.shiftGroup e.bits) false (shiftDigit op e) tmp (.reg tmp) [n]
      | .mem _ => .vex (nativeForm op e) false tmp tmp (.mem slots.b) []
    match count with
    | .imm _ => .emitAll []
    | .mem m =>
      .emitAll ([.push rcx] ++ loadCount e m ++ [storeLane .u64 slots.b rcx, .pop rcx])
    eachGroup p fun offset =>
      let a := slots.a.advance offset
      .emitAll [load cfg false tmp a, shift, store cfg false a tmp]
  | .scalar =>
    aroundScalar do
      .emitAll (match count with
        | .imm n => [.movImm rcx n.toUInt32]
        | .mem m => loadCount e m)
      eachGroup p fun offset =>
        let a := slots.a.advance offset
        .emitAll [loadLane e rax a, shiftLane op e, storeLane e a rax]
  | _ => .fail (.noFallback p)
  .emit (load cfg (wide cfg) dst slots.a)

end LaneAsm.X86
