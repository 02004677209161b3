import LaneAsm.Error
import LaneAsm.Text.Lower

/-!
Mnemonics: instruction names of eight letters such as `addax_rr`, made of an operation, a lane size,
a kind and an operand shape. `Mnemonic.parse` reads them and `Mnemonic.text` writes them.
-/
namespace LaneAsm

/-- What an instruction does: an operation, a jump, or a compare and jump. -/
inductive Verb where
  | op (o : Op)
  | jmp
  | cmj
deriving Repr, DecidableEq, Inhabited

namespace Verb

def name : Verb → String
  | .op o => o.name
  | .jmp => "jmp"
  | .cmj => "cmj"

/-- The operation of a verb; the jumps have none. -/
def operation : Verb → Op
  | .op o => o
  | _ => .none

def isJump : Verb → Bool
  | .op _ => false
  | _ => true

/-- The verb of a name. -/
def ofName? (s : String) : Option Verb :=
  match s with
  | "jmp" => some .jmp
  | "cmj" => some .cmj
  | s => (Op.ofName? s).map .op

end Verb

/-- The lane size of a mnemonic; `p` follows the width of the base registers, and `x` marks an
instruction on base registers. -/
inductive LaneSize where
  | b
  | a
  | m
  | o
  | q
  | p
  | x
deriving Repr, DecidableEq, Inhabited

namespace LaneSize

def all : List LaneSize := [.b, .a, .m, .o, .q, .p, .x]

def letter : LaneSize → Char
  | .b => 'b'
  | .a => 'a'
  | .m => 'm'
  | .o => 'o'
  | .q => 'q'
  | .p => 'p'
  | .x => 'x'

def ofLetter? (c : Char) : Option LaneSize := all.find? (·.letter == c)

/-- The bits of a lane where base registers have `baseBits`. -/
def bits (baseBits : Nat) : LaneSize → Nat
  | .b => 8
  | .a | .m => 16
  | .o => 32
  | .q => 64
  | .p | .x => baseBits

end LaneSize

/-- The letter of a kind in a mnemonic. -/
def Kind.mark : Kind → Char
  | .unsigned => 'x'
  | .signed => 'n'
  | .float => 's'

def Kind.ofMark? (c : Char) : Option Kind :=
  [Kind.unsigned, .signed, .float].find? (·.mark == c)

/-- The operands that a mnemonic takes. -/
inductive Shape where
  /-- Destination and source register. -/
  | rr
  /-- Destination and memory. -/
  | ld
  /-- Memory and source. -/
  | st
  /-- Destination and immediate. -/
  | ri
  /-- One register. -/
  | rx
  /-- A label. -/
  | lb
  /-- Destination and two source registers. -/
  | rr3
  /-- Destination, source register and memory. -/
  | ld3
  /-- Destination, source register and immediate. -/
  | ri3
deriving Repr, DecidableEq, Inhabited

namespace Shape

def all : List Shape := [.rr, .ld, .st, .ri, .rx, .lb, .rr3, .ld3, .ri3]

def text : Shape → String
  | .rr => "_rr"
  | .ld => "_ld"
  | .st => "_st"
  | .ri => "_ri"
  | .rx => "_rx"
  | .lb => "_lb"
  | .rr3 => "3rr"
  | .ld3 => "3ld"
  | .ri3 => "3ri"

def ofText? (s : String) : Option Shape := all.find? (·.text == s)

/-- Whether a shape names a destination of its own. -/
def three : Shape → Bool
  | .rr3 | .ld3 | .ri3 => true
  | _ => false

/-- The number of operands, before a condition and a target. -/
def arity : Shape → Nat
  | .rx | .lb => 1
  | .rr3 | .ld3 | .ri3 => 3
  | _ => 2

end Shape

/-- An instruction name. -/
structure Mnemonic where
  verb : Verb
  size : LaneSize
  kind : Kind
  shape : Shape
deriving Repr, DecidableEq, Inhabited

namespace Mnemonic

/-- Whether the instruction works on base registers. -/
def isBase (m : Mnemonic) : Bool := m.size == .x

def text (m : Mnemonic) : String :=
  m.verb.name ++ String.ofList [m.size.letter, m.kind.mark] ++ m.shape.text

/-- The lane type where base registers have `baseBits`. -/
def elem (m : Mnemonic) (baseBits : Nat) : Elem := ⟨m.size.bits baseBits, m.kind⟩

/-- A jump works on base registers, and float lanes have a size that follows from their letter. -/
def consistent (m : Mnemonic) : Bool :=
  (!m.verb.isJump || m.isBase)
    && (m.kind != .float || m.size == .o || m.size == .q || m.size == .p)

/-- Reads a mnemonic of lower-case letters. -/
def ofChars? : List Char → Option Mnemonic
  | [o1, o2, o3, size, kind, s1, s2, s3] => do
    let m : Mnemonic := {
      verb := ← Verb.ofName? (String.ofList [o1, o2, o3])
      size := ← LaneSize.ofLetter? size
      kind := ← Kind.ofMark? kind
      shape := ← Shape.ofText? (String.ofList [s1, s2, s3]) }
    if m.consistent then some m else none
  | _ => none

/-- Reads a mnemonic in letters of either case. -/
def parse (s : List Char) : Except Error Mnemonic :=
  let t := Text.lower s
  match ofChars? t with
  | some m => .ok m
  | none => Error.fail (.mnemonic (.unknown t))

end Mnemonic

end LaneAsm
