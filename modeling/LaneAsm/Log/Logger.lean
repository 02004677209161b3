import LaneAsm.Log.Record
import LaneAsm.Text.Split

/-!
The logger: where records go, and which modules write the detailed ones.
-/
namespace LaneAsm

/-- A place for records: those of a level or above are written, with some pairs in each. -/
structure LogSink where
  level : LogLevel
  colored : Bool
  attrs : List Attr
deriving Repr, DecidableEq

/-- A logger. Without a sink it drops every record. -/
structure Logger where
  sink? : Option LogSink
  /-- The modules whose detailed records are written. -/
  modules : List String
deriving Repr, DecidableEq

namespace Logger

/-- The modules of the program. -/
def knownModules : List String := ["x86", "msa", "simd", "fallback", "interp", "native", "rtasm"]

/-- The logger at the start: it drops every record, and the command line's module is enabled. -/
def start : Logger := ⟨none, ["rtasm"]⟩

def enable (l : Logger) (module : String) : Logger :=
  if l.modules.contains module then l else { l with modules := module :: l.modules }

def disable (l : Logger) (module : String) : Logger :=
  { l with modules := l.modules.filter (· ≠ module) }

/-- Enables the modules of a list with commas; `all` stands for every module of the program. -/
def enableList (l : Logger) (list : String) : Logger :=
  ((Text.splitAt ',' list.toList).map fun s => String.ofList (Text.trim s)).foldl
    (fun l m => if m = "" then l else if m = "all" then knownModules.foldl enable l else l.enable m) l

/-- Puts pairs into every record from now on. -/
def withValues (l : Logger) (values : List LogValue) : Logger :=
  { l with sink? := l.sink?.map fun s => { s with attrs := s.attrs ++ Attr.ofValues values } }

/-- Whether a record of a level is written. -/
def enabled (l : Logger) (level : LogLevel) : Bool :=
  l.sink?.any fun s => s.level ≤ level

/-- The line of a record, without its time, or nothing if it is not written. -/
def line (l : Logger) (level : LogLevel) (module message : String) (values : List LogValue) :
    String :=
  match l.sink? with
  | none => ""
  | some s =>
    if level < s.level then ""
    else
      let name := if s.colored then level.color level.aligned else level.aligned
      let attrs := [⟨"level", .text name⟩, ⟨"msg", .text message⟩] ++ s.attrs
        ++ (if module = "" then [] else [⟨"module", .text module⟩]) ++ Attr.ofValues values
      String.intercalate " " (attrs.filterMap Attr.render?) ++ "\n"

/-- The line of a record that only enabled modules write, if it is a detailed one. -/
def moduleLine (l : Logger) (level : LogLevel) (module message : String) (values : List LogValue) :
    String :=
  if level < LogLevel.info && !l.modules.contains module then ""
  else l.line level module message values

end Logger

end LaneAsm
