import LaneAsm.Report.Size
import LaneAsm.Text.Utf8

/-!
Jobs: what a command does, as data. A job prints, reads its input and reads and writes files; who
runs it decides what these are. `Job.runIn` runs a job over a directory held in memory.
-/
namespace LaneAsm

/-- What is written to a file. -/
inductive FileContent where
  | bytes (b : Bytes)
  | chart (c : Chart)
deriving Repr, DecidableEq

/-- Why a file cannot be read or written. -/
inductive FileError where
  | missing (path : String)
  | notDirectory (path : String)
  | opensDirectory (path : String)
  | readsDirectory (path : String)
deriving Repr, DecidableEq

def FileError.message : FileError → String
  | .missing path => "open " ++ path ++ ": no such file or directory"
  | .notDirectory path => "open " ++ path ++ ": not a directory"
  | .opensDirectory path => "open " ++ path ++ ": is a directory"
  | .readsDirectory path => "read " ++ path ++ ": is a directory"

/-- A job with a result of type `α`. -/
inductive Job (α : Type) where
  | done (a : α)
  | fail (f : Fault)
  | print (text : String) (next : Job α)
  /-- Reads all of the input. -/
  | input (next : Bytes → Job α)
  | read (path : String) (next : Except FileError Bytes → Job α)
  | write (path : String) (content : FileContent) (next : Except FileError Unit → Job α)

namespace Job

variable {α β : Type}

/-- Goes on after a job with its result. -/
def andThen (j : Job α) (k : α → Job β) : Job β :=
  match j with
  | .done a => k a
  | .fail f => .fail f
  | .print text next => .print text (next.andThen k)
  | .input next => .input fun b => (next b).andThen k
  | .read path next => .read path fun r => (next r).andThen k
  | .write path content next => .write path content fun r => (next r).andThen k

instance : Monad Job where
  pure := .done
  bind := andThen

/-- A job that fails with an error of its own. -/
def refuse (text : String) : Job α := .fail (.error (.plain text))

/-- The result of a computation, whose fault is that of the job. -/
def ofExcept : Except Fault α → Job α
  | .ok a => .done a
  | .error f => .fail f

/-- The result of a computation that cannot trap. -/
def ofResult (x : Except Error α) : Job α := ofExcept (Fault.lift x)

/-- Prints a text. -/
def say (text : String) : Job Unit := .print text (.done ())

/-- What a file system answers, with its error as that of the job. -/
def ofFile : Except FileError α → Job α
  | .ok a => .done a
  | .error e => refuse e.message

/-- The bytes of a file. -/
def readFile (path : String) : Job Bytes := .read path ofFile

/-- Writes a file. -/
def writeFile (path : String) (content : FileContent) : Job Unit := .write path content ofFile

end Job

/-- A directory held in memory: its files by name. -/
abbrev Directory := List (String × FileContent)

namespace Directory

/-- The names that a path goes through. -/
def parts (path : String) : List String :=
  (path.splitOn "/").filter fun s => s ≠ "" && s ≠ "."

/-- The name of a file in a directory. -/
def name (path : String) : String := String.intercalate "/" (parts path)

/-- Whether a path is the directory or one inside it. -/
def isDirectory (d : Directory) (path : String) : Bool :=
  let ps := parts path
  path ≠ "" && (ps.isEmpty || d.any fun (name, _) =>
    ps.isPrefixOf (parts name) && ps.length < (parts name).length)

/-- Whether a path goes through a file. -/
def throughFile (d : Directory) (path : String) : Bool :=
  let ps := parts path
  d.any fun (name, _) => (parts name).isPrefixOf ps
    && ((parts name).length < ps.length || path.endsWith "/")

/-- The content of a file. -/
def read (d : Directory) (path : String) : Except FileError FileContent :=
  if path.startsWith "/" then .error (.missing path)
  else if d.isDirectory path then .error (.readsDirectory path)
  else if d.throughFile path then .error (.notDirectory path)
  else match d.lookup (name path) with
    | some content => .ok content
    | none => .error (.missing path)

/-- The directory with a file written. -/
def write (d : Directory) (path : String) (content : FileContent) : Except FileError Directory :=
  if path = "" || path.startsWith "/" then .error (.missing path)
  else if d.isDirectory path || path.endsWith "/" then .error (.opensDirectory path)
  else if d.throughFile path then .error (.notDirectory path)
  else
    let parent := String.intercalate "/" (parts path).dropLast
    if parent ≠ "" && !d.isDirectory parent then .error (.missing path)
    else if d.any (·.1 == name path) then
      .ok (d.map fun (n, old) => (n, if n == name path then content else old))
    else .ok (d ++ [(name path, content)])

end Directory

/-- A chart as a page with a table: a row for each name along the axis, a column for each series. -/
def Chart.page (c : Chart) : String :=
  let row (cells : List String) : String :=
    "<tr>" ++ String.join (cells.map fun s => "<td>" ++ s ++ "</td>") ++ "</tr>\n"
  "<html><head><title>" ++ c.title ++ "</title></head><body>\n<p>" ++ c.subtitle ++ "</p>\n<table>\n"
    ++ row ("" :: c.series.map (·.1))
    ++ String.join (c.axis.zipIdx.map fun (name, i) =>
      row (name :: c.series.map fun (_, sizes) => ((sizes[i]?).map (toString ·.bytes)).getD ""))
    ++ "</table>\n</body></html>\n"

/-- The bytes of what a file holds. -/
def FileContent.raw : FileContent → Bytes
  | .bytes b => b
  | .chart c => (Text.toUtf8 c.page).toArray

/-- A job run over a directory: its result, what it printed, the directory after it and the names of
the files it wrote. -/
structure JobRun (α : Type) where
  result : Except Fault α
  output : String
  directory : Directory
  written : List String

/-- Runs a job over a directory with some input. -/
def Job.runIn {α : Type} (input : Bytes) (d : Directory) : Job α → JobRun α
  | .done a => ⟨.ok a, "", d, []⟩
  | .fail f => ⟨.error f, "", d, []⟩
  | .print text next =>
    let r := next.runIn input d
    { r with output := text ++ r.output }
  | .input next => (next input).runIn #[] d
  | .read path next => (next ((d.read path).map FileContent.raw)).runIn input d
  | .write path content next =>
    match d.write path content with
    | .ok d =>
      let r := (next (.ok ())).runIn input d
      { r with written := Directory.name path :: r.written }
    | .error e => (next (.error e)).runIn input d

end LaneAsm
