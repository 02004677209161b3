import LaneAsm.Lane.Integer

/-!
Float lanes, as raw bits. The minimum and maximum return one of their arguments as it was passed,
the second when either is not a number; a comparator other than `cne` is false on such a value.
-/
namespace LaneAsm.Lane

/-- The result of an arithmetic operation on single-precision values. -/
def singleArith? (op : Op) (a b : Float32) : Option Float32 :=
  match op with
  | .add => some (a + b)
  | .sub => some (a - b)
  | .mul => some (a * b)
  | .div => some (a / b)
  | _ => none

/-- The result of an arithmetic operation on double-precision values. -/
def doubleArith? (op : Op) (a b : Float) : Option Float :=
  match op with
  | .add => some (a + b)
  | .sub => some (a - b)
  | .mul => some (a * b)
  | .div => some (a / b)
  | _ => none

/-- The operations that only compare: `less` and `greater` order the two values and `equal` says
whether they are the same number. -/
def ordered (op : Op) (e : Elem) (a b : UInt64) (less greater equal : Bool) : UInt64 :=
  match op with
  | .min => if less then a else b
  | .max => if greater then a else b
  | .ceq => flag e equal
  | .cne => flag e (!equal)
  | .clt => flag e less
  | .cle => flag e (less || equal)
  | .cgt => flag e greater
  | .cge => flag e (greater || equal)
  | _ => 0

/-- One float lane: single precision at 32 bits, and double precision at every other width. -/
def float (op : Op) (e : Elem) (a b : UInt64) : UInt64 :=
  if e.bits = 32 then
    let x := Float32.ofBits a.toUInt32
    let y := Float32.ofBits b.toUInt32
    match singleArith? op x y with
    | some r => r.toBits.toUInt64
    | none => ordered op e a b (x < y) (y < x) (x == y)
  else
    let x := Float.ofBits a
    let y := Float.ofBits b
    match doubleArith? op x y with
    | some r => r.toBits
    | none => ordered op e a b (x < y) (y < x) (x == y)

/-- The single-precision bits nearest to a double-precision value given by its bits. A value that
is not a number keeps its sign and the high bits of its payload. -/
def roundSingle (bits : UInt64) : UInt64 :=
  let x := Float.ofBits bits
  if x == x then x.toFloat32.toBits.toUInt64
  else (shiftRight bits 63 <<< 31) ||| 0x7FC00000 ||| (shiftRight bits 29 &&& 0x3FFFFF)

/-- One lane of an operation. -/
def eval (op : Op) (e : Elem) (a b : UInt64) : UInt64 :=
  if e.isFloat then float op e a b else integer op e a b

end LaneAsm.Lane
