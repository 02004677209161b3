import LaneAsm.Report.Outline
import LaneAsm.Target

/-!
The targets as an outline, by instruction set and level.
-/
namespace LaneAsm

/-- The text of a target's level: the name that the target gives it, else the one that it has in
some of the targets, or its number where it has none. -/
def Config.levelText (cfgs : List Config) (cfg : Config) : String :=
  ((cfg :: cfgs.filter (·.level == cfg.level)).map (·.levelName)).find? (· ≠ "") |>.getD
    (toString cfg.level)

/-- What the outline says of a target. -/
def Config.describe (cfg : Config) : String :=
  cfg.name ++ "  regs=" ++ toString cfg.vectorRegs ++ " u32x" ++ toString cfg.lanes32
    ++ " base=" ++ toString cfg.baseBits ++ " addr=" ++ toString cfg.addressBits

/-- Groups by a key; groups and their members keep the order in which they first appear. -/
def groupBy {α : Type} (key : α → String) (xs : List α) : List (String × List α) :=
  (xs.map key).eraseDups.map fun k => (k, xs.filter fun x => key x == k)

/-- The outline of targets; those that `host` accepts are marked. -/
def targetOutline (host : Config → Bool) (cfgs : List Config) : Outline :=
  .node "targets" <| (groupBy (·.isa.text) cfgs).map fun (isa, group) =>
    .node isa <| (groupBy (Config.levelText cfgs) group).map fun (level, group) =>
      .node level <| group.map fun cfg =>
        .node ((if host cfg then "[host]  " else "") ++ cfg.describe) []

end LaneAsm
