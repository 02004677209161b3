import LaneAsm.Elem

/-!
Portable operations and the facts about them that hold on every target.
-/
namespace LaneAsm

/-- A portable operation. `other` stands for the operation numbers without a meaning. -/
inductive Op where
  | none
  | mov
  | and
  /-- Complement of the first source, and the second. -/
  | ann
  | orr
  /-- Complement of the first source, or the second. -/
  | orn
  | xor
  | not
  | add
  | sub
  | mul
  | div
  /-- Saturating addition. -/
  | ads
  /-- Saturating subtraction. -/
  | sbs
  | min
  | max
  /-- Shift by one count: an immediate, or the first lane of a memory operand. -/
  | shl
  | shr
  /-- Shift by a count for each lane. -/
  | svl
  | svr
  | ceq
  | cne
  | clt
  | cle
  | cgt
  | cge
  /-- Move under a mask. -/
  | mmv
  /-- Jump on a mask. -/
  | mkj
  | other (code : UInt8)
deriving Repr, DecidableEq, Hashable, Inhabited

namespace Op

/-- The operations with a name of their own, in the order of their numbers. -/
def named : List Op :=
  [.none, .mov, .and, .ann, .orr, .orn, .xor, .not, .add, .sub, .mul, .div, .ads, .sbs, .min, .max,
    .shl, .shr, .svl, .svr, .ceq, .cne, .clt, .cle, .cgt, .cge, .mmv, .mkj]

/-- The operation of a number. -/
def ofCode (code : UInt8) : Op := (named[code.toNat]?).getD (.other code)

/-- The number of an operation. -/
def code (op : Op) : Nat :=
  match op with
  | .other code => code.toNat
  | op => named.idxOf op

/-- The three-letter name of an operation. -/
def name : Op → String
  | .none => "none"
  | .mov => "mov"
  | .and => "and"
  | .ann => "ann"
  | .orr => "orr"
  | .orn => "orn"
  | .xor => "xor"
  | .not => "not"
  | .add => "add"
  | .sub => "sub"
  | .mul => "mul"
  | .div => "div"
  | .ads => "ads"
  | .sbs => "sbs"
  | .min => "min"
  | .max => "max"
  | .shl => "shl"
  | .shr => "shr"
  | .svl => "svl"
  | .svr => "svr"
  | .ceq => "ceq"
  | .cne => "cne"
  | .clt => "clt"
  | .cle => "cle"
  | .cgt => "cgt"
  | .cge => "cge"
  | .mmv => "mmv"
  | .mkj => "mkj"
  | .other _ => "op?"

/-- The operation of a name; `none` is the name of no instruction. -/
def ofName? (s : String) : Option Op := (named.drop 1).find? (·.name == s)

/-- The comparators, which give a lane mask. -/
def compares : List Op := [.ceq, .cne, .clt, .cle, .cgt, .cge]

def isCompare : Op → Bool
  | .ceq | .cne | .clt | .cle | .cgt | .cge => true
  | _ => false

/-- The operations on bits, for which the element type does not matter. -/
def isLogic : Op → Bool
  | .and | .ann | .orr | .orn | .xor | .not => true
  | _ => false

/-- The operations whose two sources may change places. -/
def commutative : Op → Bool
  | .and | .orr | .xor | .add | .mul | .ads | .min | .max | .ceq | .cne => true
  | _ => false

/-- The comparator that says the same of the sources in the other order. -/
def swapped : Op → Op
  | .clt => .cgt
  | .cgt => .clt
  | .cle => .cge
  | .cge => .cle
  | op => op

/-- The comparator that holds where this one does not, on ordered values. -/
def complement : Op → Op
  | .ceq => .cne
  | .cne => .ceq
  | .clt => .cge
  | .cge => .clt
  | .cle => .cgt
  | .cgt => .cle
  | op => op

/-- Whether an operation is defined on an element type, whatever the target. -/
def applies (op : Op) (e : Elem) : Bool :=
  e.valid && match op with
    | .div => e.isFloat
    | .ads | .sbs | .shl | .shr | .svl | .svr => !e.isFloat
    | _ => true

/-- The name of an operation on an element type, such as `add.u8`. -/
def on (op : Op) (e : Elem) : String := op.name ++ "." ++ e.text

end Op

end LaneAsm
