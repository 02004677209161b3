import LaneAsm.Golden.Basic
import LaneAsm.Json.Diff

/-!
The difference between expected and present code, as text. It compares two maps from names to codes,
so of several vectors with one name the last expected code counts, and of several drifts the last.
-/
namespace LaneAsm

/-- What a drift says in a difference: the present code, or the error. -/
def Drift.text (d : Drift) : String :=
  match d.error? with
  | some e => "error: " ++ e.message
  | none => d.got

namespace Golden

/-- The expected codes by name. -/
def want (g : Golden) : TextMap := TextMap.empty.setAll (g.vectors.map fun v => (v.name, v.code))

/-- The present codes by name: what drifts say, and else the expected codes. -/
def got (g : Golden) (drifts : List Drift) : TextMap :=
  g.want.setAll (drifts.map fun d => (d.name, d.text))

/-- The difference that some drifts make, or nothing if they make none. -/
def diff (lib : JsonDiff) (coloring : Bool) (g : Golden) (drifts : List Drift) :
    Except Error String := do
  if drifts.isEmpty then return ""
  let delta ← lib.compare g.want (g.got drifts)
  if lib.modified delta then lib.format coloring g.want delta else return ""

end Golden

end LaneAsm
