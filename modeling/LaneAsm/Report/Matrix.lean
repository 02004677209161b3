import LaneAsm.Encoder
import LaneAsm.Report.Table

/-!
Support matrices: how a target realises each operation on each element type.
-/
namespace LaneAsm

/-- The operations that reports list. -/
def reportOps : List Op :=
  [.add, .sub, .mul, .div, .ads, .sbs, .min, .max, .shl, .shr, .svl, .svr, .ceq, .cne, .clt, .cle,
    .cgt, .cge, .orn, .mmv]

/-- The letter of a support in a matrix. -/
def Support.mark : Support → String
  | .native => "N"
  | .fallback => "F"
  | .derived => "D"
  | .unsupported => "-"

/-- The support of every listed operation on every element type of a target. -/
structure SupportMatrix where
  target : Config
  rows : List (Op × List Support)

namespace SupportMatrix

/-- The matrix of a target that can be encoded for. -/
def build (cfg : Config) : Except Error SupportMatrix := do
  let b ← encoder? cfg
  return ⟨cfg, reportOps.map fun op => (op, Elem.all.map (b.support op))⟩

/-- The support of an operation on an element type; what is not listed is not supported. -/
def get (m : SupportMatrix) (op : Op) (e : Elem) : Support :=
  match m.rows.lookup op with
  | some row => ((Elem.all.zip row).lookup e).getD .unsupported
  | none => .unsupported

/-- How often a support occurs. -/
def count (m : SupportMatrix) (s : Support) : Nat := (m.rows.flatMap (·.2)).count s

/-- The matrix as a table under a line that explains its letters. -/
def render (m : SupportMatrix) : String :=
  let table : Table := {
    header := "op" :: Elem.all.map Elem.text
    rows := m.rows.map fun (op, row) => op.name :: row.map Support.mark }
  m.target.name ++ "  (N native, F fallback, D derived, - unsupported)\n" ++ table.render .center

/-- One row of counts for each target. -/
def summary (cfgs : List Config) : Except Error String := do
  let matrices ← cfgs.mapM build
  let table : Table := {
    header := ["target", "native", "fallback", "derived", "unsupported"]
    rows := matrices.map fun m =>
      m.target.name :: [Support.native, .fallback, .derived, .unsupported].map fun s =>
        toString (m.count s) }
  return table.render .natural

end SupportMatrix

end LaneAsm
