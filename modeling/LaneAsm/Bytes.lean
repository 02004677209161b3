import LaneAsm.Instances

/-!
Byte strings with little-endian reads and writes of a given number of bytes.
-/
namespace LaneAsm

/-- A byte string: a vector value, a memory or encoded instructions. -/
abbrev Bytes := Array UInt8

/-- The low `n` bytes of a word, the lowest first. -/
def littleEndian : (n : Nat) → UInt64 → List UInt8
  | 0, _ => []
  | n + 1, x => x.toUInt8 :: littleEndian n (x >>> 8)

namespace Bytes

/-- `n` zero bytes. -/
def zeros (n : Nat) : Bytes := Array.replicate n 0

/-- The word that `n` bytes from offset `o` on spell; bytes past the end count as zero. -/
def readWord (v : Bytes) : (o n : Nat) → UInt64
  | _, 0 => 0
  | o, n + 1 => (v.getD o 0).toUInt64 ||| (readWord v (o + 1) n <<< 8)

/-- Replaces the bytes from offset `o` on; those past the end are dropped. -/
def write (v : Bytes) (o : Nat) : List UInt8 → Bytes
  | [] => v
  | b :: bs => write (v.setIfInBounds o b) (o + 1) bs

/-- The word of `n` bytes at offset `o`, if they all exist. -/
def read? (v : Bytes) (o n : Nat) : Option UInt64 :=
  if o + n ≤ v.size then some (readWord v o n) else none

/-- Replaces the `n` bytes at offset `o` by the low bytes of a word, if they all exist. -/
def write? (v : Bytes) (o n : Nat) (x : UInt64) : Option Bytes :=
  if o + n ≤ v.size then some (write v o (littleEndian n x)) else none

/-- The bytes as a list. -/
def list (v : Bytes) : List UInt8 := v.toList

end Bytes

end LaneAsm
