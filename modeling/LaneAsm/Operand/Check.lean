import LaneAsm.Error

/-!
The checks of operands: displacements and immediates lie in the windows of their classes, memory
references are based on and indexed by base registers.
-/
namespace LaneAsm

/-- The value that a sum of 64 bits holds. -/
def wrap64 (n : Int) : Int := n.bmod (2 ^ 64)

/-- Whether a value of 64 bits is not negative and has no bit outside a mask. -/
def insideMask (mask : UInt64) (value : Int) : Bool :=
  0 ≤ value && UInt64.ofInt value &&& ~~~mask == 0

/-- A displacement is inside its window. The masks leave the two low bits out, so it is also a
multiple of four. -/
def Disp.check (d : Disp) : Except Error Unit :=
  match d.kind.mask? with
  | some mask => if insideMask mask d.value then .ok () else Error.fail (.dispOutside d)
  | none => Error.fail (.dispOutside d)

/-- An immediate is inside its window. -/
def Imm.check (i : Imm) : Except Error Unit :=
  match i.kind.mask? with
  | some mask => if insideMask mask i.value then .ok () else Error.fail (.immOutside i)
  | none => Error.fail (.immOutside i)

namespace Mem

/-- The registers of a reference are base registers and its displacement is inside its window. -/
def check (m : Mem) : Except Error Unit := do
  if m.base.kind ≠ .base then Error.fail (.operandKind (.memoryBase m.base))
  if let some index := m.index then
    if index.kind ≠ .base then Error.fail (.operandKind (.memoryIndex index))
  m.disp.check

/-- The reference `delta` bytes further on. Its displacement is no longer bound to the window it
was written for but has to fit the widest one. -/
def offset (m : Mem) (delta : Int) : Except Error Mem :=
  let disp : Disp := ⟨wrap64 (m.disp.value + delta), .dv⟩
  match disp.check with
  | .ok () => .ok { m with disp }
  | .error e => .error (e.within (.moved m delta))

end Mem

end LaneAsm
