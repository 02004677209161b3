import LaneAsm.Bytes
import LaneAsm.Lane.Float

/-!
Vectors as byte strings of lanes, the lowest byte of a lane first. Reading or writing a lane that
is not wholly there has no result.
-/
namespace LaneAsm

/-- The bytes that a lane access touches. -/
def Elem.width (e : Elem) : Nat :=
  if e.bits = 8 then 1 else if e.bits = 16 then 2 else if e.bits = 32 then 4 else 8

namespace Bytes

/-- The number of lanes; there is none for lanes of less than a byte. -/
def laneCount? (v : Bytes) (e : Elem) : Option Nat :=
  if e.bytes = 0 then none else some (v.size / e.bytes)

/-- The bits of lane `i`. -/
def lane? (v : Bytes) (e : Elem) (i : Nat) : Option UInt64 := v.read? (i * e.bytes) e.width

/-- Stores the low bits of a word in lane `i`. -/
def setLane? (v : Bytes) (e : Elem) (i : Nat) (x : UInt64) : Option Bytes :=
  v.write? (i * e.bytes) e.width x

/-- Stores the lanes that `f` gives from lane `i` on, `n` of them. -/
def fill? (e : Elem) (f : Nat → Option UInt64) : (i n : Nat) → Bytes → Option Bytes
  | _, 0, v => some v
  | i, n + 1, v => do
    let x ← f i
    fill? e f (i + 1) n (← v.setLane? e i x)

/-- The lanes from lane `i` on, `n` of them. -/
def lanesFrom? (v : Bytes) (e : Elem) : (i n : Nat) → Option (List UInt64)
  | _, 0 => some []
  | i, n + 1 => do
    let x ← v.lane? e i
    let rest ← lanesFrom? v e (i + 1) n
    return x :: rest

/-- The vector with the given lanes. -/
def pack? (e : Elem) (xs : List UInt64) : Option Bytes :=
  fill? e (fun i => xs[i]?) 0 xs.length (zeros (xs.length * e.bytes))

/-- The vector whose lanes are the given double-precision values, rounded where lanes have 32
bits. -/
def packFloat? (e : Elem) (xs : List UInt64) : Option Bytes :=
  pack? e (if e.bits = 32 then xs.map Lane.roundSingle else xs)

/-- The lanes of a vector. -/
def unpack? (e : Elem) (v : Bytes) : Option (List UInt64) := do
  lanesFrom? v e 0 (← v.laneCount? e)

end Bytes

/-- The operations on bits, byte by byte. -/
def Lane.logicByte (op : Op) (a b : UInt8) : UInt8 :=
  match op with
  | .and => a &&& b
  | .ann => ~~~a &&& b
  | .orr => a ||| b
  | .orn => ~~~a ||| b
  | .xor => a ^^^ b
  | _ => 0

namespace Lanes

open Bytes

/-- An operation on two vectors. Operations on bits ignore the element type, shifts take their count
from the first lane of `b`, and every other operation pairs the lanes. -/
def eval? (op : Op) (e : Elem) (a b : Bytes) : Option Bytes :=
  match op with
  | .and | .ann | .orr | .orn | .xor =>
    if a.size ≤ b.size then some (Array.zipWith (Lane.logicByte op) a b) else none
  | .not => some (a.map (~~~·))
  | .mov => some ((zeros a.size).write 0 b.toList)
  | .shl | .shr => do
    let n ← a.laneCount? e
    let count ← b.lane? e 0
    fill? e (fun i => (a.lane? e i).map (Lane.eval op e · count)) 0 n (zeros a.size)
  | _ => do
    let n ← a.laneCount? e
    fill? e (fun i => do
      let y ← b.lane? e i
      let x ← a.lane? e i
      return Lane.eval op e x y) 0 n (zeros a.size)

/-- Shifts every lane by one count. -/
def shift? (op : Op) (e : Elem) (a : Bytes) (count : UInt64) : Option Bytes := do
  let n ← a.laneCount? e
  fill? e (fun i => (a.lane? e i).map (Lane.eval op e · count)) 0 n (zeros a.size)

/-- The bits of `src` where the mask is set and those of `dst` elsewhere. -/
def merge? (dst src mask : Bytes) : Option Bytes :=
  if dst.size ≤ src.size && dst.size ≤ mask.size then
    some (Array.zipWith (fun m (s, d) => (s &&& m) ||| (d &&& ~~~m)) mask
      (Array.zip src dst))
  else none

/-- No byte has its top bit set. -/
def maskNone (m : Bytes) : Bool := m.all (· < 0x80)

/-- Every byte has its top bit set. -/
def maskFull (m : Bytes) : Bool := m.all (0x80 ≤ ·)

end Lanes

end LaneAsm
