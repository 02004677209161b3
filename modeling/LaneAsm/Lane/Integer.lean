import LaneAsm.Op

/-!
Integer lanes, computed on words of 64 bits. A lane is the low `bits` bits of a word.
-/
namespace LaneAsm.Lane

/-- A word moved up; counts of 64 and more leave nothing. -/
def shiftLeft (x n : UInt64) : UInt64 := if n < 64 then x <<< n else 0

/-- A word moved down; counts of 64 and more leave nothing. -/
def shiftRight (x n : UInt64) : UInt64 := if n < 64 then x >>> n else 0

/-- A signed word moved down; counts of 64 and more leave only the sign. -/
def shiftRightSigned (x : Int64) (n : UInt64) : Int64 :=
  if n < 64 then x >>> n.toInt64 else if x < 0 then -1 else 0

/-- The signed value of the low `bits` bits of a word. -/
def signExtend (bits : Nat) (x : UInt64) : Int64 :=
  let n := 64 - UInt64.ofNat bits
  shiftRightSigned (shiftLeft x n).toInt64 n

/-- The least signed value of `bits` bits. -/
def lowest (bits : Nat) : Int64 :=
  (shiftLeft 0xFFFFFFFFFFFFFFFF (UInt64.ofNat bits - 1)).toInt64

/-- The greatest signed value of `bits` bits. -/
def highest (bits : Nat) : Int64 := -(lowest bits + 1)

/-- A value moved to the nearer end if it lies outside `lo` to `hi`. -/
def clamp (x lo hi : Int64) : Int64 := if x < lo then lo else if hi < x then hi else x

/-- The sum inside `lo` to `hi`; a sum that wraps is known by its sign. -/
def addSigned (a b lo hi : Int64) : Int64 :=
  let s := a + b
  if decide (0 ≤ a) == decide (0 ≤ b) && decide (0 ≤ s) != decide (0 ≤ a) then
    if 0 ≤ a then hi else lo
  else clamp s lo hi

/-- The difference inside `lo` to `hi`; a difference that wraps is known by its sign. -/
def subSigned (a b lo hi : Int64) : Int64 :=
  let s := a - b
  if decide (0 ≤ a) != decide (0 ≤ b) && decide (0 ≤ s) != decide (0 ≤ a) then
    if 0 ≤ a then hi else lo
  else clamp s lo hi

/-- The sum of unsigned values, at most `hi`. -/
def addUnsigned (a b hi : UInt64) : UInt64 :=
  let s := a + b
  if s < a then hi else if s < hi then s else hi

/-- The difference of unsigned values, at least zero. -/
def subUnsigned (a b : UInt64) : UInt64 := if a < b then 0 else a - b

/-- The mask of a lane where a condition holds. -/
def flag (e : Elem) (holds : Bool) : UInt64 := if holds then e.mask else 0

/-- The operations that read a lane as signed; `a` and `b` are the signed values and `n` the bits of
the second lane. -/
def signedLane? (op : Op) (e : Elem) (a b : Int64) (n : UInt64) : Option UInt64 :=
  let lo := lowest e.bits
  let hi := highest e.bits
  match op with
  | .ads => some ((addSigned a b lo hi).toUInt64 &&& e.mask)
  | .sbs => some ((subSigned a b lo hi).toUInt64 &&& e.mask)
  | .min => some ((if a < b then a else b).toUInt64 &&& e.mask)
  | .max => some ((if b < a then a else b).toUInt64 &&& e.mask)
  | .shr | .svr =>
    some ((shiftRightSigned a (n &&& (UInt64.ofNat e.bits - 1))).toUInt64 &&& e.mask)
  | .ceq => some (flag e (a == b))
  | .cne => some (flag e (a != b))
  | .clt => some (flag e (a < b))
  | .cle => some (flag e (a ≤ b))
  | .cgt => some (flag e (b < a))
  | .cge => some (flag e (b ≤ a))
  | _ => none

/-- The operations that read a lane as unsigned. -/
def unsignedLane? (op : Op) (e : Elem) (a b : UInt64) : Option UInt64 :=
  match op with
  | .ads => some (addUnsigned a b e.mask)
  | .sbs => some (subUnsigned a b)
  | .min => some (if a < b then a else b)
  | .max => some (if b < a then a else b)
  | .shr | .svr => some (shiftRight a (b &&& (UInt64.ofNat e.bits - 1)))
  | .ceq => some (flag e (a == b))
  | .cne => some (flag e (a != b))
  | .clt => some (flag e (a < b))
  | .cle => some (flag e (a ≤ b))
  | .cgt => some (flag e (b < a))
  | .cge => some (flag e (b ≤ a))
  | _ => none

/-- One integer lane. Where the sign matters the operation reads the lanes by their kind; the
others work modulo the lane width, and an operation without a lane form gives zero. -/
def integer (op : Op) (e : Elem) (a b : UInt64) : UInt64 :=
  let a := a &&& e.mask
  let b := b &&& e.mask
  let bySign :=
    if e.kind = .signed then signedLane? op e (signExtend e.bits a) (signExtend e.bits b) b
    else unsignedLane? op e a b
  match bySign with
  | some r => r
  | none =>
    match op with
    | .add => (a + b) &&& e.mask
    | .sub => (a - b) &&& e.mask
    | .mul => (a * b) &&& e.mask
    | .shl | .svl => shiftLeft a (b &&& (UInt64.ofNat e.bits - 1)) &&& e.mask
    | _ => 0

end LaneAsm.Lane
