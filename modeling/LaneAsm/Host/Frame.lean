import LaneAsm.X86.Insn

/-!
The frame around encoded code that makes it a callable routine: registers that a callee keeps are
saved, the base register is loaded, and on the way out vector state is cleared and registers are
restored.
-/
namespace LaneAsm.Host

open X86

/-- The registers that a callee keeps, in the order in which they are saved. -/
def saved : List RegNum := [5, 3, 12, 13, 14, 15]

/-- Loads a general register with a value of 64 bits. The number is cut to what its fields hold. -/
def loadAddress (base : Int) (address : UInt64) : List UInt8 :=
  [if 8 ≤ base then 0x49 else 0x48, 0xB8 + UInt8.ofNat (base % 8).toNat] ++ littleEndian 8 address

/-- Saves registers and loads the base register. -/
def prologue (base : Int) (address : UInt64) : List UInt8 :=
  saved.flatMap (fun r => (Insn.push r).bytes false) ++ loadAddress base address

/-- Clears vector state, restores registers and returns. -/
def epilogue (avx : Bool) : List UInt8 :=
  (if avx then [0xC5, 0xF8, 0x77] else []) ++ [0x66, 0x45, 0x0F, 0xEF, 0xFF]
    ++ saved.reverse.flatMap (fun r => (Insn.pop r).bytes false) ++ [0xC3]

end LaneAsm.Host
