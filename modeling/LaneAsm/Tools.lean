import LaneAsm.Catalog
import LaneAsm.Json.Diff
import LaneAsm.Script.Parser
import LaneAsm.X86.Decode

/-!
The parts that the program takes from elsewhere.
-/
namespace LaneAsm

/-- The tools of a program: its targets, an engine for scripts, a decoder of x86 instructions and a
comparison of JSON objects. -/
structure Tools where
  catalog : Catalog
  engine : Script.Engine
  decoder : X86.Decoder
  jsonDiff : JsonDiff

/-- The tools for the targets of a catalog. -/
def Tools.ofCatalog (c : Catalog) : Tools := ⟨c, .small, X86.decodeLegacy?, .ascii⟩

end LaneAsm
