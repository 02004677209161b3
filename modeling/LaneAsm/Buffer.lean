import LaneAsm.Bytes
import LaneAsm.Label
import LaneAsm.Operand.Check

/-!
Code buffers: encoded bytes in program order, labels with the offsets they are bound to, and the
places that refer to labels. `Buffer.finish` writes the distance to its label into each place.
-/
namespace LaneAsm

/-- How a reference to a label is written. `other` stands for the numbers without a meaning, whose
references are left alone. -/
inductive FixupKind where
  /-- Four bytes that hold the distance in bytes. -/
  | rel32
  /-- The low half of a branch word, which holds the distance in words. -/
  | mips16
  | other (code : UInt8)
deriving Repr, DecidableEq, Inhabited

/-- The kind of a number. -/
def FixupKind.ofCode (code : UInt8) : FixupKind :=
  match code.toNat with
  | 0 => .rel32
  | 1 => .mips16
  | _ => .other code

/-- A reference to a label: the offset where it is written and the offset from which the distance
is measured. -/
structure Fixup where
  kind : FixupKind
  site : Int
  origin : Int
  label : LabelRef
deriving Repr, DecidableEq, Inhabited

/-- A code buffer. Label number `i` is bound to offset `labels[i]`, if it is bound. -/
structure Buffer where
  code : Bytes
  labels : Array (Option Nat)
  fixups : Array Fixup
deriving Repr, DecidableEq, Inhabited

namespace Buffer

/-- The buffer with nothing in it. -/
def empty : Buffer := ⟨#[], #[], #[]⟩

/-- The number of bytes so far. -/
def size (b : Buffer) : Nat := b.code.size

/-- Appends bytes. -/
def emit (b : Buffer) (bytes : List UInt8) : Buffer := { b with code := b.code ++ bytes }

/-- Appends the low `n` bytes of a word, the lowest first. -/
def emitWord (b : Buffer) (n : Nat) (x : UInt64) : Buffer := b.emit (littleEndian n x)

/-- Makes a label that is not bound yet. -/
def newLabel (b : Buffer) (name : RawText) : Label × Buffer :=
  (⟨name, b.labels.size⟩, { b with labels := b.labels.push none })

/-- Binds a label to the current offset. A label is known by its number alone; a number that was
not given out, and a missing label, are refused. -/
def bind (b : Buffer) (l : LabelRef) : Except Error Buffer :=
  match l with
  | none => Error.fail .foreignLabel
  | some l =>
    match b.labels[l.id]? with
    | none => Error.fail .foreignLabel
    | some (some _) => Error.fail (.boundTwice l.name)
    | some none => .ok { b with labels := b.labels.setIfInBounds l.id (some b.size) }

/-- Records a reference to a label. -/
def fix (b : Buffer) (f : Fixup) : Buffer := { b with fixups := b.fixups.push f }

/-- The offset a reference's label is bound to. -/
def target? (labels : Array (Option Nat)) (f : Fixup) : Option Nat := do
  let l ← f.label
  (← labels[l.id]?)

/-- Writes the distance to its label into the place of one reference. -/
def patch (labels : Array (Option Nat)) (code : Bytes) (f : Fixup) : Except Fault Bytes :=
  match target? labels f with
  | none => .error (.error (.ofCause (.neverBound f.label.name)))
  | some target =>
    let rel := wrap64 (target - f.origin)
    let inside := 0 ≤ f.site && f.site + 4 ≤ code.size
    match f.kind with
    | .rel32 =>
      if rel < -2 ^ 31 ∨ 2 ^ 31 ≤ rel then .error (.error (.ofCause (.branchDisplacement rel)))
      else if inside then .ok (code.write f.site.toNat (littleEndian 4 (UInt64.ofInt rel)))
      else .error .trap
    | .mips16 =>
      let words := rel / 4
      if rel % 4 ≠ 0 ∨ words < -2 ^ 15 ∨ 2 ^ 15 ≤ words then
        .error (.error (.ofCause (.branchOffset rel)))
      else if inside then
        .ok (code.write f.site.toNat (littleEndian 2 (UInt64.ofInt words)))
      else .error .trap
    | .other _ => .ok code

/-- Patches references in order up to the first that fails; what was patched before it stays. -/
def patchAll (labels : Array (Option Nat)) : List Fixup → Bytes → Except Fault Unit × Bytes
  | [], code => (.ok (), code)
  | f :: fs, code =>
    match patch labels code f with
    | .ok code => patchAll labels fs code
    | .error e => (.error e, code)

/-- Resolves every reference and gives the final code. -/
def finish (b : Buffer) : Except Fault Bytes × Buffer :=
  let (outcome, code) := patchAll b.labels b.fixups.toList b.code
  (outcome.map fun _ => code, { b with code })

end Buffer

end LaneAsm
