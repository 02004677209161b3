import LaneAsm.Catalog.BuiltIn
import LaneAsm.Cli.Run

/-!
The program: carries out the job of its arguments on the terminal and the file system.
-/
namespace LaneAsm

/-- Everything that a stream still holds, after what was read before. -/
partial def readAll (stream : IO.FS.Stream) (before : ByteArray) : IO ByteArray := do
  let more ← stream.read 65536
  if more.isEmpty then return before else readAll stream (before ++ more)

/-- Whether an access to a file succeeded; a failure counts as a missing file. -/
def attempt {α : Type} (path : String) (access : IO α) : IO (Except FileError α) := do
  match ← access.toBaseIO with
  | .ok a => return .ok a
  | .error _ => return .error (.missing path)

/-- Carries out a job. -/
def carryOut {α : Type} : Job α → IO (Except Fault α)
  | .done a => return .ok a
  | .fail f => return .error f
  | .print text next => do
    (← IO.getStdout).putStr text
    carryOut next
  | .input next => do
    let bytes ← readAll (← IO.getStdin) ByteArray.empty
    carryOut (next bytes.data)
  | .read path next => do
    let bytes ← attempt path (IO.FS.readBinFile path)
    carryOut (next (bytes.map ByteArray.data))
  | .write path content next => do
    let done ← attempt path (IO.FS.writeBinFile path ⟨content.raw⟩)
    carryOut (next done)

/-- The variables of the environment that settings look at. -/
def readEnvironment : IO (List (String × String)) := do
  let names := (Cli.globalFlags.map (·.name) ++ ["color"]).map Cli.Settings.variableName
  names.filterMapM fun name => do
    return (← IO.getEnv name).map fun value => (name, value)

end LaneAsm

open LaneAsm in
def main (args : List String) : IO UInt32 := do
  let env ← readEnvironment
  match ← carryOut (Cli.perform (.ofCatalog .standard) (env.lookup ·) args) with
  | .ok () => return 0
  | .error (.error e) =>
    (← IO.getStderr).putStrLn (Cli.programName ++ ": " ++ e.message)
    return 1
  | .error .trap =>
    (← IO.getStderr).putStrLn (Cli.programName ++ ": trap")
    return 2
