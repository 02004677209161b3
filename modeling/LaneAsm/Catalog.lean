import LaneAsm.Error
import LaneAsm.Target

/-!
Catalogs of targets: the built-in targets, how targets are found by name, the files that hold further
ones, and the target of the host.
-/
namespace LaneAsm

/-- A catalog of targets. -/
structure Catalog where
  builtIn : List Config
  /-- The target of a name. -/
  find : String → Except Error Config
  /-- The target of a name, first among some extra ones. -/
  findAmong : List Config → String → Except Error Config
  /-- The targets that a file holds. -/
  load : String → Except Error (List Config)
  /-- The best target that the host runs. -/
  host : Except Error Config

namespace Catalog

/-- The catalog of built-in targets that are found by their names, of files with their targets, and of
a host with the name of its target. Names and paths in `refused` fail with the text beside them. -/
def ofTables (builtIn : List Config) (refused : List (String × String))
    (files : List (String × List Config)) (host : String) : Catalog :=
  let allow {α : Type} (key : String) (x : Except Error α) : Except Error α :=
    match refused.lookup key with
    | some text => .error (.plain text)
    | none => x
  let find (name : String) : Except Error Config :=
    allow name <| match builtIn.find? (·.name == name) with
      | some cfg => .ok cfg
      | none => Error.fail (.custom .profile name)
  { builtIn
    find
    findAmong := fun extra name =>
      match extra.find? (·.name == name) with
      | some cfg => .ok cfg
      | none => find name
    load := fun path =>
      allow path <| match files.lookup path with
        | some cfgs => .ok cfgs
        | none => .error (.plain ("open " ++ path ++ ": no such file or directory"))
    host := find host }

end Catalog

end LaneAsm
