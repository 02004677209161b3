import LaneAsm.Assembler.Lower

/-!
The assembler: portable instructions issued one after another. The first error is kept and every
later instruction is counted but does nothing.
-/
namespace LaneAsm

/-- An assembler over programs of type `σ`. -/
structure Assembler (σ : Type) where
  state : σ
  /-- Instructions issued so far. -/
  count : Nat
  /-- The first error. -/
  error? : Option Error

namespace Assembler

variable {σ : Type}

/-- The assembler of a program with nothing issued. -/
def start (s : σ) : Assembler σ := ⟨s, 0, none⟩

/-- Issues an instruction. An error is kept with the number and the name of the instruction; only a
trap is an outcome other than success. -/
def issue (b : Backend σ) (a : Assembler σ) (i : Instr LabelRef) : Except Fault Unit × Assembler σ :=
  let a := { a with count := a.count + 1 }
  match a.error? with
  | some _ => (.ok (), a)
  | none =>
    let plan := b.lower i
    let (done, s) := b.issueAll plan.items a.state
    let a := { a with state := s }
    match done.bind fun _ => plan.outcome with
    | .ok () => (.ok (), a)
    | .error (.error e) =>
      (.ok (), { a with error? := some (e.within (.instruction a.count i.name)) })
    | .error .trap => (.error .trap, a)

/-- Makes a label. -/
def newLabel (b : Backend σ) (a : Assembler σ) (name : RawText) : Label × Assembler σ :=
  let (l, s) := b.newLabel name a.state
  (l, { a with state := s })

/-- The size of the program so far. -/
def size (b : Backend σ) (a : Assembler σ) : Nat := b.size a.state

/-- The finished program, unless an instruction failed. -/
def code (b : Backend σ) (a : Assembler σ) : Except Fault Bytes × Assembler σ :=
  match a.error? with
  | some e => (.error (.error e), a)
  | none =>
    let (outcome, s) := b.finish a.state
    (outcome, { a with state := s })

end Assembler

/-- The base-register element of a kind. -/
def Config.pointerElem (cfg : Config) (k : Kind) : Elem := ⟨cfg.baseBits, k⟩

end LaneAsm
