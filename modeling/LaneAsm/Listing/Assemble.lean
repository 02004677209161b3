import LaneAsm.Assembler.Basic
import LaneAsm.Listing.Parser

/-!
From listings to programs: each line is a portable instruction over label names, and names become
labels of the program when they are first used.
-/
namespace LaneAsm

namespace Line

/-- Argument `i` of a line. Not every shape has as many arguments as its instruction looks at. -/
def arg (l : Line) (i : Nat) : Except Fault Operand :=
  match l.args[i]? with
  | some o => .ok o
  | none => .error .trap

/-- Argument `i` of a line, which has to be a register. -/
def regArg (l : Line) (i : Nat) : Except Fault Reg := do
  match ← l.arg i with
  | .reg r => return r
  | o => Fault.fail (.operandKind (.notRegister o))

/-- The shape of a line does not go with its operation. -/
def badShape {α : Type} (l : Line) : Except Fault α :=
  Fault.fail (.mnemonic (.shape l.mnemonic.text))

/-- The instruction of a line on vector registers. -/
def vectorInstr (baseBits : Nat) (l : Line) : Except Fault (Instr RawText) := do
  let shape := l.mnemonic.shape
  match l.mnemonic.verb.operation with
  | .mov =>
    if shape.three || shape == .ri || shape == .rx then l.badShape
    else return .mov (← l.arg 0) (← l.arg 1)
  | .mkj => return .maskJump (← l.regArg 0) l.mask l.target
  | .mmv =>
    let dst ← l.regArg 0
    if shape.three then l.badShape
    else return .merge dst (← l.arg 1)
  | .not =>
    let dst ← l.regArg 0
    let src ← if 1 < l.args.length then l.regArg 1 else pure dst
    return .not dst src
  | op =>
    if shape == .rx || shape == .st || shape == .lb then l.badShape
    else
      let e := l.mnemonic.elem baseBits
      let dst ← l.regArg 0
      if shape.three then
        let s1 ← l.regArg 1
        return .ofOp op e dst s1 (← l.arg 2)
      else return .ofOp op e dst dst (← l.arg 1)

/-- The instruction of a line on base registers. -/
def baseInstr (l : Line) : Except Fault (Instr RawText) := do
  let shape := l.mnemonic.shape
  match l.mnemonic.verb with
  | .jmp => return .jump l.target
  | .cmj => return .compareJump (← l.regArg 0) (← l.arg 1) l.cond l.target
  | .op .mov => return .movBase (← l.arg 0) (← l.arg 1)
  | .op op =>
    if shape != .rr && shape != .ri && shape != .ld then l.badShape
    else
      let dst ← l.regArg 0
      match op with
      | .add | .sub | .and | .orr | .xor => return .arithBase op dst (← l.arg 1)
      | .shl | .shr =>
        match ← l.arg 1 with
        | .imm n => return .shiftBase op (op == .shr && l.mnemonic.kind == .signed) dst n
        | _ => Fault.fail (.operandKind .baseShiftCount)
      | _ => Fault.fail (.mnemonic (.base l.mnemonic.text))

/-- The instruction of a line where base registers have `baseBits`. -/
def instr (baseBits : Nat) (l : Line) : Except Fault (Instr RawText) :=
  if l.mnemonic.isBase then l.baseInstr else l.vectorInstr baseBits

end Line

/-- An assembler at work on a listing: the labels made so far go by their names. -/
structure Assembly (σ : Type) where
  assembler : Assembler σ
  labels : List (RawText × Label)

namespace Assembly

variable {σ : Type}

/-- The label of a name, which is made when the name is new. -/
def label (b : Backend σ) (a : Assembly σ) (name : RawText) : Label × Assembly σ :=
  match a.labels.lookup name with
  | some l => (l, a)
  | none =>
    let (l, assembler) := a.assembler.newLabel b name
    (l, ⟨assembler, (name, l) :: a.labels⟩)

/-- Issues an instruction over label names. -/
def issue (b : Backend σ) (a : Assembly σ) (i : Instr RawText) : Except Fault Unit × Assembly σ :=
  let (ref, a) : LabelRef × Assembly σ := match i.label? with
    | some name =>
      let (l, a) := a.label b name
      (some l, a)
    | none => (none, a)
  let (done, assembler) := a.assembler.issue b (i.mapLabel fun _ => ref)
  (done, { a with assembler })

/-- Binds labels in order. -/
def bindAll (b : Backend σ) (a : Assembly σ) : List RawText → Except Fault Unit × Assembly σ
  | [] => (.ok (), a)
  | name :: names =>
    match a.issue b (.bind name) with
    | (.ok (), a) => bindAll b a names
    | (.error f, a) => (.error f, a)

/-- The error that the assembler keeps. -/
def status (a : Assembly σ) : Except Fault Unit :=
  match a.assembler.error? with
  | some e => .error (.error e)
  | none => .ok ()

/-- Binds the labels of a line and issues its instruction. What is wrong with the line itself is
reported before an error that the assembler keeps. -/
def line (b : Backend σ) (a : Assembly σ) (l : Line) : Except Fault Unit × Assembly σ :=
  match a.bindAll b l.labels with
  | (.error f, a) => (.error f, a)
  | (.ok (), a) =>
    match l.instr b.config.baseBits with
    | .error f => (.error f, a)
    | .ok i =>
      match a.issue b i with
      | (.error f, a) => (.error f, a)
      | (.ok (), a) => (a.status, a)

/-- Lines in order, up to the first that fails; its number goes in front of what it reports. -/
def lines (b : Backend σ) (a : Assembly σ) : List Line → Except Fault Unit × Assembly σ
  | [] => (.ok (), a)
  | l :: ls =>
    match a.line b l with
    | (.ok (), a) => lines b a ls
    | (.error f, a) => (.error (f.within (.line l.number)), a)

end Assembly

namespace Listing

variable {σ : Type}

/-- Issues a listing on an assembler. -/
def assemble (b : Backend σ) (a : Assembler σ) (l : Listing) : Except Fault Unit × Assembler σ :=
  match Assembly.lines b ⟨a, []⟩ l.lines with
  | (.error f, a) => (.error f, a.assembler)
  | (.ok (), a) =>
    match a.bindAll b l.tail with
    | (.error f, a) => (.error f, a.assembler)
    | (.ok (), a) => (a.status, a.assembler)

end Listing

end LaneAsm
