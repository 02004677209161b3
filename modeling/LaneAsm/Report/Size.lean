import LaneAsm.Report.Matrix

/-!
Encoded sizes of operations, and the chart that compares targets.
-/
namespace LaneAsm

/-- The encoded length of one operation with three operands. -/
structure OpSize where
  op : Op
  support : Support
  bytes : Nat
deriving Repr, DecidableEq

/-- The instruction whose size is measured: registers one, two and three, or a count of three. -/
def OpSize.probe (op : Op) (e : Elem) : Instr LabelRef :=
  match op with
  | .mmv => .merge (.xmm 1) (.reg (.xmm 2))
  | .shl | .shr => .ofOp op e (.xmm 1) (.xmm 2) (.imm ⟨3, .ib⟩)
  | op => .ofOp op e (.xmm 1) (.xmm 2) (.reg (.xmm 3))

/-- The size of an operation; one that is not supported has none. -/
def OpSize.measure (b : Backend Buffer) (e : Elem) (op : Op) : Except Fault OpSize := do
  let support := b.support op e
  if support = .unsupported then return ⟨op, support, 0⟩
  let (done, a) := (Assembler.start Buffer.empty).issue b (probe op e)
  done
  let code ← (a.code b).1
  return ⟨op, support, code.size⟩

/-- The sizes of the listed operations on an element type. -/
def Config.sizes (cfg : Config) (e : Elem) : Except Fault (List OpSize) := do
  let b ← Fault.lift (encoder? cfg)
  reportOps.mapM (OpSize.measure b e)

/-- A bar chart: a title, the names along its axis, and for each target a series of sizes. -/
structure Chart where
  title : String
  subtitle : String
  axis : List String
  series : List (String × List OpSize)
deriving Repr, DecidableEq

/-- The chart of the sizes of operations on an element type. -/
def Chart.ofSizes (e : Elem) (cfgs : List Config) : Except Fault Chart := do
  let series ← cfgs.mapM fun cfg => do return (cfg.name, ← cfg.sizes e)
  return ⟨"Encoded size", "bytes per three-operand " ++ e.text ++ " operation",
    reportOps.map Op.name, series⟩

end LaneAsm
