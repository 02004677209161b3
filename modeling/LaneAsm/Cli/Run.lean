import LaneAsm.Cli.Command
import LaneAsm.Cli.Job
import LaneAsm.Cli.Settings
import LaneAsm.Golden.Diff
import LaneAsm.Golden.File
import LaneAsm.Host.Run
import LaneAsm.Log.Level
import LaneAsm.Report.Targets
import LaneAsm.Session
import LaneAsm.Text.Dump

/-!
What each command does, as a job.
-/
namespace LaneAsm.Cli

/-- The surroundings of a command. -/
structure Context where
  tools : Tools
  settings : Settings

namespace Context

def parsed (c : Context) : Parsed := c.settings.parsed

def catalog (c : Context) : Catalog := c.tools.catalog

/-- The targets of the file of targets, if one is set. -/
def extraTargets (c : Context) : Job (List Config) :=
  match c.settings.get "profiles" with
  | "" => pure []
  | path => Job.ofResult (c.catalog.load path)

/-- The target that is set. -/
def target (c : Context) : Job Config := do
  let extra ← c.extraTargets
  match c.settings.get "target" with
  | "host" => Job.ofResult c.catalog.host
  | name => Job.ofResult (c.catalog.findAmong extra name)

/-- The text of the file that is the first argument, or of the input if there is none. -/
def source (c : Context) : Job RawText := do
  let bytes ← match c.parsed.args with
    | [] | "-" :: _ => Job.input pure
    | path :: _ => Job.readFile path
  return .ofUtf8 bytes.toList

/-- The listing to work on, which a script may generate. -/
def listing (c : Context) : Job Listing := do
  let text ← c.source
  if c.parsed.switch "js" then
    match Script.generate c.tools.engine text.chars with
    | .ok text => Job.ofExcept (Listing.parse (.ofChars text))
    | .error text => Job.refuse text
  else Job.ofExcept (Listing.parse text)

/-- Encodes a listing, to a file or as text. -/
def encode (c : Context) : Job Unit := do
  let cfg ← c.target
  let l ← c.listing
  let code ← Job.ofExcept (l.encode cfg)
  match c.parsed.textD "output" "" with
  | "" =>
    match c.parsed.textD "format" "hex" with
    | "hex" => Job.say (Text.hexBytes code.toList ++ "\n")
    | "asm" => Job.say (disassemble c.tools.decoder cfg.isa code)
    | format => Job.refuse ("unknown format " ++ Text.quote format.toList)
  | path => Job.writeFile path (.bytes code)

/-- Prints the support matrix of a target, or a summary of the built-in ones. -/
def matrix (c : Context) : Job Unit := do
  if c.parsed.switch "all" then
    Job.say (← Job.ofResult (SupportMatrix.summary c.catalog.builtIn))
  else
    let cfg ← c.target
    Job.say (← Job.ofResult (SupportMatrix.build cfg)).render

/-- Prints the targets. -/
def targets (c : Context) : Job Unit := do
  let extra ← c.extraTargets
  Job.say (targetOutline Config.hostRuns (c.catalog.builtIn ++ extra)).render

/-- Writes a chart of encoded sizes. The file is there, and empty, even if the chart fails. -/
def chart (c : Context) : Job Unit := do
  let elem := c.parsed.textD "elem" "u32"
  match Elem.all.find? (·.text == elem) with
  | none => Job.refuse ("unknown element " ++ Text.quote elem.toList)
  | some e =>
    let cfgs ← c.parsed.args.mapM fun name => Job.ofResult (c.catalog.find name)
    let cfgs ← if cfgs.isEmpty then do pure [← c.target] else pure cfgs
    let path := c.parsed.textD "output" "sizes.html"
    Job.writeFile path (.bytes #[])
    let chart ← Job.ofExcept (Chart.ofSizes e cfgs)
    Job.writeFile path (.chart chart)
    Job.say ("wrote " ++ path ++ "\n")

/-- Checks golden vectors, or updates them. -/
def golden (c : Context) : Job Unit := do
  let path := c.parsed.args.headD ""
  let bytes ← Job.readFile path
  let g ← Job.ofResult (Golden.ofText path (.ofUtf8 bytes.toList))
  if c.parsed.switch "update" then
    let (done, g) := g.update c.catalog
    Job.ofExcept done
    Job.writeFile path (.bytes (Text.toUtf8 g.render).toArray)
  else
    let drifts ← Job.ofExcept (g.check c.catalog)
    let count := toString g.vectors.length
    if drifts.isEmpty then Job.say (count ++ " vectors ok\n")
    else
      Job.say (← Job.ofResult (g.diff c.tools.jsonDiff (c.settings.isOn "color") drifts))
      Job.refuse (toString drifts.length ++ " of " ++ count ++ " vectors differ")

/-- Answers the lines of the input. -/
def repl (c : Context) : Job Unit := do
  let cfg ← c.target
  Job.say Session.help
  let bytes ← Job.input pure
  let lines := Text.lines (.char '\n') (RawText.ofUtf8 bytes.toList)
  let reply := Session.each (Session.eval c.tools) ⟨cfg, []⟩ lines
  Job.say reply.text
  if reply.ending = .trapped then .fail .trap

/-- The largest memory that can be asked for. -/
def memoryLimit : Int := 2 ^ 47

/-- The memory that a listing runs over: zeros, with the bytes of a file in front. Asking for less
than nothing or for more than there can be is a trap. -/
def memory (c : Context) : Job Bytes := do
  let size := c.parsed.integerD "size" 0x400
  if size < 0 || memoryLimit < size then .fail .trap
  else match c.parsed.textD "init" "" with
    | "" => return Bytes.zeros size.toNat
    | path =>
      let bytes ← Job.readFile path
      if size.toNat < bytes.size then
        Job.refuse (path ++ " is larger than --size " ++ toString size)
      else return (Bytes.zeros size.toNat).write 0 bytes.toList

/-- Runs a listing over a memory and prints the memory. -/
def run (c : Context) : Job Unit := do
  let cfg ← c.target
  let name := c.parsed.textD "base" "Rebp"
  let badBase : Job Unit := Job.refuse ("base register " ++ Text.quote name.toList)
  match Listing.parseReg (.ofString name) with
  | .error _ => badBase
  | .ok r =>
    if r.kind ≠ .base then badBase
    else
      let mem ← c.memory
      let l ← c.listing
      let x := if !c.parsed.switch "interp" && cfg.hostRuns then l.runOnHost cfg r.index mem
        else l.interpret cfg r.index mem
      Job.ofExcept x.assembled
      let mem ← Job.ofExcept x.memory
      Job.say (Text.dump mem.toList)

/-- The work of a command. -/
def work (c : Context) : Command → Job Unit
  | .encode => c.encode
  | .matrix => c.matrix
  | .targets => c.targets
  | .chart => c.chart
  | .golden => c.golden
  | .repl => c.repl
  | .run => c.run

end Context

/-- The pairs of the configuration file that is set, if there is one. -/
def readConfig (s : Settings) : Job (List (String × String)) :=
  match s.get "config" with
  | "" => pure []
  | path =>
    let refuse (text : String) : Job (List (String × String)) :=
      Job.refuse ("config " ++ path ++ ": " ++ text)
    match ConfigFormat.ofPath? path with
    | none => refuse ("Unsupported Config Type " ++ Text.quote (pathSuffix path).toList)
    | some format =>
      .read path fun
        | .error e => refuse e.message
        | .ok bytes =>
          match format.read (.ofUtf8 bytes.toList) with
          | .ok pairs => pure pairs
          | .error text => refuse text

/-- What the program says of its version. -/
def versionText : String := programName ++ " version dev (commit none, built unknown)\n"

/-- What the program says of its use. -/
def helpText : String :=
  "Multi-target SIMD instruction encoder\n\nUsage:\n  " ++ programName
    ++ " [command]\n\nAvailable Commands:\n"
    ++ String.join (Command.all.map fun c => "  " ++ c.name ++ "\n")

/-- The outcome of reading a command line, whose error is that of the job. -/
def ofUsage {α : Type} : Except UsageError α → Job α
  | .ok a => pure a
  | .error e => Job.refuse e.message

/-- Carries out the request of some arguments. -/
def perform (tools : Tools) (env : String → Option String) (args : List String) : Job Unit := do
  match ← ofUsage (Request.ofArgs args) with
  | .help => Job.say helpText
  | .program args =>
    let p ← ofUsage (readArgs (helpFlag :: versionFlag :: globalFlags) args)
    if !p.switch "help" && p.switch "version" then Job.say versionText else Job.say helpText
  | .command command args =>
    let p ← ofUsage (readArgs command.flags args)
    if p.switch "help" then Job.say helpText
    else
      ofUsage (command.checkArgs p.args)
      let settings : Settings := ⟨p, env, []⟩
      let settings := { settings with config := ← readConfig settings }
      let _ ← Job.ofResult (LogLevel.parse (settings.get "log"))
      (Context.mk tools settings).work command

end LaneAsm.Cli
