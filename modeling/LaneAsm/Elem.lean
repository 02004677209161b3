import LaneAsm.Instances

/-!
Element types: how wide the lanes of a vector are and how their bits are read.
-/
namespace LaneAsm

/-- How the bits of a lane are read. -/
inductive Kind where
  | unsigned
  | signed
  | float
deriving Repr, DecidableEq, Hashable, Inhabited

/-- The letter of a kind. -/
def Kind.letter : Kind → String
  | .unsigned => "u"
  | .signed => "s"
  | .float => "f"

/-- One lane type. Widths that no target knows can be written down; `Elem.valid` singles out the
widths with a meaning. -/
structure Elem where
  bits : Nat
  kind : Kind
deriving Repr, DecidableEq, Hashable, Inhabited

namespace Elem

def u8 : Elem := ⟨8, .unsigned⟩
def s8 : Elem := ⟨8, .signed⟩
def u16 : Elem := ⟨16, .unsigned⟩
def s16 : Elem := ⟨16, .signed⟩
def u32 : Elem := ⟨32, .unsigned⟩
def s32 : Elem := ⟨32, .signed⟩
def u64 : Elem := ⟨64, .unsigned⟩
def s64 : Elem := ⟨64, .signed⟩
def f32 : Elem := ⟨32, .float⟩
def f64 : Elem := ⟨64, .float⟩

/-- Every valid element type. -/
def all : List Elem := [u8, s8, u16, s16, u32, s32, u64, s64, f32, f64]

/-- The bytes from one lane to the next. -/
def bytes (e : Elem) : Nat := e.bits / 8

def isFloat (e : Elem) : Bool := e.kind == .float

def isSigned (e : Elem) : Bool := e.kind == .signed

/-- Lanes have 8, 16, 32 or 64 bits, and float lanes 32 or 64. -/
def valid (e : Elem) : Bool :=
  if e.bits == 8 || e.bits == 16 then !e.isFloat
  else e.bits == 32 || e.bits == 64

/-- A word whose low `bits` bits are set. -/
def ones (bits : Nat) : UInt64 :=
  if 64 ≤ bits then 0xFFFFFFFFFFFFFFFF else (1 <<< UInt64.ofNat bits) - 1

/-- The bits of a word that belong to one lane. -/
def mask (e : Elem) : UInt64 := ones e.bits

/-- The name of an element type, such as `u8`. -/
def text (e : Elem) : String := e.kind.letter ++ toString e.bits

end Elem

end LaneAsm
