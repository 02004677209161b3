import LaneAsm.Msa.Decode
import LaneAsm.Target
import LaneAsm.X86.Decode

/-!
Disassembly by instruction set.
-/
namespace LaneAsm

/-- The disassembly of code for an instruction set. -/
def disassemble (d : X86.Decoder) (isa : Isa) (code : Bytes) : String :=
  if isa.isMips then Msa.disassemble code else X86.disassemble d code

end LaneAsm
