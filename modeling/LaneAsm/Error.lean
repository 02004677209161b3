import LaneAsm.Text.Quoted
import LaneAsm.Op
import LaneAsm.Operand.Basic
import LaneAsm.Condition
import LaneAsm.Plan.Basic

/-!
Errors. An error has a cause, which fixes its kind and its detail, and may carry the places it was
reported from in front of it. `Error.kind?` and `Error.message` are the two views of an error.
-/
namespace LaneAsm

/-- The kinds of errors that have a code. -/
inductive ErrorKind where
  | unsupported
  | operandKind
  | registerRange
  | displacementRange
  | immediateRange
  | branchRange
  | element
  | targetConfig
  | scratch
  | profile
  | label
  | mnemonic
  | arity
  | malformed
  | execUnavailable
  | memoryBounds
  | stepLimit
deriving Repr, DecidableEq, Inhabited

namespace ErrorKind

/-- Every kind: those of encoding, of configuration, of programs and of execution. -/
def all : List ErrorKind :=
  [.unsupported, .operandKind, .registerRange, .displacementRange, .immediateRange, .branchRange,
    .element, .targetConfig, .scratch, .profile, .label, .mnemonic, .arity, .malformed,
    .execUnavailable, .memoryBounds, .stepLimit]

def code : ErrorKind → String
  | .unsupported => "E1"
  | .operandKind => "E2"
  | .registerRange => "E3"
  | .displacementRange => "E4"
  | .immediateRange => "E5"
  | .branchRange => "E6"
  | .element => "E7"
  | .targetConfig => "C1"
  | .scratch => "C2"
  | .profile => "C3"
  | .label => "P1"
  | .mnemonic => "P2"
  | .arity => "P3"
  | .malformed => "P4"
  | .execUnavailable => "X1"
  | .memoryBounds => "X2"
  | .stepLimit => "X3"

def name : ErrorKind → String
  | .unsupported => "Unsupported"
  | .operandKind => "OperandKind"
  | .registerRange => "RegisterRange"
  | .displacementRange => "DisplacementRange"
  | .immediateRange => "ImmediateRange"
  | .branchRange => "BranchRange"
  | .element => "Element"
  | .targetConfig => "TargetConfig"
  | .scratch => "Scratch"
  | .profile => "Profile"
  | .label => "Label"
  | .mnemonic => "Mnemonic"
  | .arity => "Arity"
  | .malformed => "Syntax"
  | .execUnavailable => "ExecUnavailable"
  | .memoryBounds => "MemoryBounds"
  | .stepLimit => "StepLimit"

def summary : ErrorKind → String
  | .unsupported => "Operation has no encoder for the active target."
  | .operandKind => "Operand kind is not accepted in this position."
  | .registerRange => "Register index is outside the usable register file."
  | .displacementRange => "Displacement does not fit its constructor class."
  | .immediateRange => "Immediate does not fit its constructor class."
  | .branchRange => "Branch target is out of reach of the branch encoding."
  | .element => "Element type is not valid for this operation."
  | .targetConfig => "Inconsistent target configuration."
  | .scratch => "Fallback path needs a valid scratch region."
  | .profile => "Unknown target profile."
  | .label => "Label is unbound or bound twice."
  | .mnemonic => "Unknown portable instruction."
  | .arity => "Wrong number of operands."
  | .malformed => "Malformed operand text."
  | .execUnavailable => "Code execution is not available on this host."
  | .memoryBounds => "Memory access outside the data region."
  | .stepLimit => "Program exceeded the step limit."

/-- The text of a kind: its code, its name and its summary. -/
def text (k : ErrorKind) : String := k.code ++ "|" ++ k.name ++ ": " ++ k.summary

end ErrorKind

/-- What an encoder cannot do. -/
inductive Unsupported where
  | operation (op : Op) (e : Elem) (target : String)
  | logic (op : Op)
  | direct (op : Op) (e : Elem)
  | scalar (op : Op) (e : Elem)
  | base (op : Op)
  | condition (c : Cond)
  | binaryLogic (op : Op)
  | derived (op : Op) (e : Elem)
deriving Repr, DecidableEq

def Unsupported.text : Unsupported → String
  | .operation op e target => op.on e ++ " on " ++ target
  | .logic op => op.name
  | .direct op e => op.on e ++ " has no direct encoding"
  | .scalar op e => "no scalar form of " ++ op.on e
  | .base op => op.name ++ "xx"
  | .condition c => "condition " ++ c.text
  | .binaryLogic op => op.name ++ " is not a binary logic op"
  | .derived op e => op.on e ++ " is derived"

/-- What is wrong with the kind of an operand. -/
inductive BadOperand where
  | memoryBase (r : Reg)
  | memoryIndex (r : Reg)
  | operand (o : Operand)
  | move (dst src : Operand)
  | storeSource
  | storeFrom (o : Operand)
  | shiftCount (o : Operand)
  | shiftCountKind
  | baseShiftCount
  | stackBase
  | stackIndex
  | notVector (r : Reg)
  | notBase (r : Reg)
  | notRegister (o : Operand)
  | cannotIndex (r : Reg)
  | needsRegisterOrMemory (o : Operand)
  | condition (c : Cond)
deriving Repr, DecidableEq

def BadOperand.text : BadOperand → String
  | .memoryBase r => "memory base " ++ r.text ++ " is not a base register"
  | .memoryIndex r => "memory index " ++ r.text ++ " is not a base register"
  | .operand o => o.text
  | .move dst src => dst.text ++ " <- " ++ src.text
  | .storeSource => "store needs a register source"
  | .storeFrom o => "store source " ++ o.text
  | .shiftCount o => "shift count " ++ o.text
  | .shiftCountKind => "shift count must be an immediate or memory"
  | .baseShiftCount => "base shifts take an immediate count"
  | .stackBase => "rsp based vector operand"
  | .stackIndex => "rsp cannot be an index"
  | .notVector r => r.text ++ " is not a vector register"
  | .notBase r => r.text ++ " is not a base register"
  | .notRegister o => o.text ++ " is not a register"
  | .cannotIndex r => r.text ++ " cannot be an index"
  | .needsRegisterOrMemory o => o.text ++ " needs a register or memory operand"
  | .condition c => "condition " ++ toString c.code

/-- What is wrong with a target configuration. -/
inductive BadTarget where
  | noEncoder (target : String)
  | notX86 (target : String)
  | notMips (target : String)
deriving Repr, DecidableEq

def BadTarget.text : BadTarget → String
  | .noEncoder target => "no encoder for " ++ target
  | .notX86 target => target ++ " is not an x86 target"
  | .notMips target => target ++ " is not a mips target"

/-- What is wrong with an instruction name. -/
inductive BadMnemonic where
  | unknown (text : List Char)
  | shape (mnemonic : String)
  | base (mnemonic : String)
  | threeOperands (op : Op)
deriving Repr, DecidableEq

def BadMnemonic.text : BadMnemonic → String
  | .unknown t => Text.quote t
  | .shape mnemonic => mnemonic
  | .base mnemonic => mnemonic ++ " has no base form"
  | .threeOperands op => op.name ++ " has no three-operand form"

/-- The cause of an error, one group for each kind. `custom` is for backends defined elsewhere, and
`plain` for failures that have no kind. -/
inductive Cause where
  | unsupported (what : Unsupported)
  | operandKind (what : BadOperand)
  | registerOutside (r : Reg)
  | registerUnusable (r : Reg) (count : Nat)
  | registerNumber (n : Int)
  | dispOutside (d : Disp)
  | immOutside (i : Imm)
  | branchDisplacement (rel : Int)
  | branchOffset (rel : Int)
  | element (op : Op) (e : Elem)
  | targetConfig (what : BadTarget)
  | badPlan (p : Plan)
  | noFallback (p : Plan)
  | foreignLabel
  | boundTwice (name : RawText)
  | neverBound (name : RawText)
  | mnemonic (what : BadMnemonic)
  | arity (mnemonic : String) (want got : Nat)
  | malformed (text : RawText)
  | emptyLabel
  | hostCannotRun (target : String)
  | memoryBounds (address : UInt64) (size : Nat)
  | stepLimit (limit : Nat)
  | custom (kind : ErrorKind) (detail : String)
  | plain (text : String)
deriving Repr, DecidableEq

namespace Cause

/-- The kind of a cause. -/
def kind? : Cause → Option ErrorKind
  | .unsupported _ => some .unsupported
  | .operandKind _ => some .operandKind
  | .registerOutside _ | .registerUnusable _ _ | .registerNumber _ => some .registerRange
  | .dispOutside _ => some .displacementRange
  | .immOutside _ => some .immediateRange
  | .branchDisplacement _ | .branchOffset _ => some .branchRange
  | .element _ _ => some .element
  | .targetConfig _ => some .targetConfig
  | .badPlan _ | .noFallback _ => some .scratch
  | .foreignLabel | .boundTwice _ | .neverBound _ => some .label
  | .mnemonic _ => some .mnemonic
  | .arity _ _ _ => some .arity
  | .malformed _ | .emptyLabel => some .malformed
  | .hostCannotRun _ => some .execUnavailable
  | .memoryBounds _ _ => some .memoryBounds
  | .stepLimit _ => some .stepLimit
  | .custom kind _ => some kind
  | .plain _ => none

/-- A value outside the window of its class, or a class without a window. -/
def outside (kind : String) (code : Option UInt8) (value : Int) (mask : Option UInt64) : String :=
  match code, mask with
  | some code, _ => "unknown class " ++ toString code.toNat
  | none, mask =>
    kind ++ "(" ++ Text.hex value ++ ") outside mask " ++ Text.hex ((mask.map UInt64.toNat).getD 0)

/-- What a cause says after the text of its kind. -/
def detail : Cause → String
  | .unsupported what => what.text
  | .operandKind what => what.text
  | .registerOutside r => r.text
  | .registerUnusable r count => r.text ++ " (usable 0.." ++ toString ((count : Int) - 1) ++ ")"
  | .registerNumber n => "base register " ++ toString n
  | .dispOutside d =>
    outside d.kind.text (match d.kind with | .other code => some code | _ => none) d.value
      d.kind.mask?
  | .immOutside i =>
    outside i.kind.text (match i.kind with | .other code => some code | _ => none) i.value
      i.kind.mask?
  | .branchDisplacement rel => "rel32 " ++ toString rel
  | .branchOffset rel => "mips offset " ++ toString rel
  | .element op e => op.on e
  | .targetConfig what => what.text
  | .badPlan p => "bad plan " ++ p.text
  | .noFallback p => p.text ++ " has no fallback"
  | .foreignLabel => "foreign label"
  | .boundTwice name => name.quote ++ " bound twice"
  | .neverBound name => name.quote ++ " never bound"
  | .mnemonic what => what.text
  | .arity m want got =>
    m ++ " takes " ++ toString want ++ " operands, got " ++ toString got
  | .malformed text => text.quote
  | .emptyLabel => "empty label"
  | .hostCannotRun target => "host cannot run " ++ target
  | .memoryBounds address size => Text.hex address.toNat ++ "+" ++ toString size
  | .stepLimit limit => toString limit
  | .custom _ detail => detail
  | .plain text => text

/-- The text of a cause: the text of its kind, if it has one, and its detail. -/
def message (c : Cause) : String :=
  match c.kind? with
  | some k => k.text ++ ": " ++ c.detail
  | none => c.detail

end Cause

/-- Where an error was reported from. -/
inductive Place where
  /-- The portable instruction with a number, counted from one. -/
  | instruction (number : Nat) (name : String)
  | line (number : Nat)
  /-- A memory operand moved by some bytes. -/
  | moved (m : Mem) (delta : Int)
  /-- A step of a recorded program, counted from zero. -/
  | step (number : Nat) (name : String)
  | named (name : String)
deriving Repr, DecidableEq

def Place.text : Place → String
  | .instruction number name => "#" ++ toString number ++ " " ++ name
  | .line number => "line " ++ toString number
  | .moved m delta => m.text ++ " moved by " ++ toString delta
  | .step number name => "step " ++ toString number ++ " " ++ name
  | .named name => name

/-- An error: a cause, and the places it was reported from, the outermost first. -/
structure Error where
  places : List Place
  cause : Cause
deriving Repr, DecidableEq

namespace Error

def ofCause (c : Cause) : Error := ⟨[], c⟩

instance : Coe Cause Error := ⟨ofCause⟩

/-- The outcome of a check that fails for a cause. -/
def fail {α : Type} (c : Cause) : Except Error α := .error (ofCause c)

/-- An error without a kind. -/
def plain (text : String) : Error := ofCause (.plain text)

/-- The error reported from a further place. -/
def within (e : Error) (p : Place) : Error := { e with places := p :: e.places }

/-- The kind of an error is that of its cause. -/
def kind? (e : Error) : Option ErrorKind := e.cause.kind?

/-- The text of an error: its places, each followed by a colon, and its cause. -/
def message (e : Error) : String :=
  e.places.foldr (fun p rest => p.text ++ ": " ++ rest) e.cause.message

end Error

/-- What stops a call: an error, or a trap, which is an access outside a table, a vector or a
buffer that nothing guards. -/
inductive Fault where
  | error (e : Error)
  | trap
deriving Repr, DecidableEq

namespace Fault

/-- The outcome of a call that fails for a cause. -/
def fail {α : Type} (c : Cause) : Except Fault α := .error (.error (.ofCause c))

/-- An outcome that can only be an error, where a trap is possible too. -/
def lift {α : Type} (x : Except Error α) : Except Fault α := x.mapError .error

theorem lift_ok {α : Type} (a : α) : lift (.ok a) = .ok a := rfl

/-- The fault reported from a further place; a trap has no place. -/
def within (f : Fault) (p : Place) : Fault :=
  match f with
  | .error e => .error (e.within p)
  | .trap => .trap

end Fault

end LaneAsm
