import LaneAsm.Cli.Flag
import LaneAsm.Text.Distance
import LaneAsm.Text.Lower

/-!
The commands, the flags and arguments each of them takes, and how the command is found among the
arguments.
-/
namespace LaneAsm.Cli

inductive Command where
  | encode
  | matrix
  | targets
  | chart
  | golden
  | repl
  | run
deriving Repr, DecidableEq

/-- How many arguments a command takes. -/
inductive ArgRule where
  | none
  | any
  | atMost (n : Nat)
  | exactly (n : Nat)
deriving Repr, DecidableEq

/-- The name of the program. -/
def programName : String := "rtasm"

/-- The flags of every command. -/
def globalFlags : List Flag :=
  ["target", "profiles", "config", "log", "debug"].map fun name => ⟨name, .none, .text⟩

def helpFlag : Flag := ⟨"help", some 'h', .switch⟩

/-- The flag that only the program itself takes, without a command. -/
def versionFlag : Flag := ⟨"version", some 'v', .switch⟩

namespace Command

def all : List Command := [.encode, .matrix, .targets, .chart, .golden, .repl, .run]

def name : Command → String
  | .encode => "encode"
  | .matrix => "matrix"
  | .targets => "targets"
  | .chart => "chart"
  | .golden => "golden"
  | .repl => "repl"
  | .run => "run"

def ofName? (s : String) : Option Command := all.find? (·.name == s)

/-- The flags of a command alone. -/
def ownFlags : Command → List Flag
  | .encode => [⟨"format", .none, .text⟩, ⟨"js", .none, .switch⟩, ⟨"output", some 'o', .text⟩]
  | .matrix => [⟨"all", .none, .switch⟩]
  | .targets | .repl => []
  | .chart => [⟨"elem", .none, .text⟩, ⟨"output", some 'o', .text⟩]
  | .golden => [⟨"update", .none, .switch⟩, ⟨"color", .none, .switch⟩]
  | .run => [⟨"size", .none, .integer⟩, ⟨"init", .none, .text⟩, ⟨"base", .none, .text⟩,
      ⟨"interp", .none, .switch⟩, ⟨"js", .none, .switch⟩]

/-- All flags that a command takes. -/
def flags (c : Command) : List Flag := c.ownFlags ++ helpFlag :: globalFlags

def argRule : Command → ArgRule
  | .encode | .run => .atMost 1
  | .matrix | .targets | .repl => .none
  | .chart => .any
  | .golden => .exactly 1

/-- Checks the number of arguments of a command. -/
def checkArgs (c : Command) (args : List String) : Except UsageError Unit :=
  match c.argRule, args with
  | .none, arg :: _ => .error (.unknownCommand arg (programName ++ " " ++ c.name) [])
  | .atMost n, args => if n < args.length then .error (.atMost n args.length) else .ok ()
  | .exactly n, args => if args.length ≠ n then .error (.exactly n args.length) else .ok ()
  | _, _ => .ok ()

/-- The commands that a mistyped name may mean: those at a distance of at most two, without regard
to case, and those that begin with it. -/
def suggestions (typed : String) : List String :=
  let typed := Text.lower typed.toList
  let bytes (s : List Char) := Text.toUtf8 (String.ofList s)
  (all.map name).filter fun name =>
    Text.editDistance (bytes typed) (bytes name.toList) ≤ 2 || typed.isPrefixOf name.toList

end Command

/-- Whether an argument takes the next one with it, as far as can be told before the command is
known: a flag without its value that is no known switch. -/
def takesNext (flags : List Flag) (arg : String) : Bool :=
  let s := arg.toList
  !s.contains '=' && (match s with
    | '-' :: '-' :: name =>
      !flags.any fun f => f.kind = .switch && f.name.toList == name
    | ['-', c] => c.utf8Size = 1 && !flags.any fun f => f.kind = .switch && f.letter? == some c
    | _ => false)

/-- The arguments that are neither flags nor their values. A flag whose value would be the last
argument ends the search. -/
def words (flags : List Flag) : List String → List String
  | [] => []
  | arg :: rest =>
    if arg = "--" then []
    else if takesNext flags arg then
      if rest.length ≤ 1 then [] else words flags rest.tail
    else if arg ≠ "" && !arg.startsWith "-" then arg :: words flags rest
    else words flags rest
termination_by args => args.length
decreasing_by all_goals simp only [List.length_tail, List.length_cons]; omega

/-- The arguments without the first one that is the given word. -/
def dropWord (flags : List Flag) (word : String) : List String → List String
  | [] => []
  | arg :: rest =>
    if arg = "--" then arg :: rest
    else if takesNext flags arg then
      match rest with
      | [] => [arg]
      | value :: rest => arg :: value :: dropWord flags word rest
    else if !arg.startsWith "-" && arg = word then rest
    else arg :: dropWord flags word rest

/-- What the arguments ask for. -/
inductive Request where
  | command (c : Command) (args : List String)
  /-- The help of the program. -/
  | help
  /-- No command: only flags of the program itself. -/
  | program (args : List String)
deriving Repr, DecidableEq

/-- The request of the arguments: their first word is the command. -/
def Request.ofArgs (args : List String) : Except UsageError Request :=
  match words globalFlags args with
  | [] => .ok (.program args)
  | word :: _ =>
    match Command.ofName? word with
    | some c => .ok (.command c (dropWord globalFlags word args))
    | none =>
      if word = "help" then .ok .help
      else .error (.unknownCommand word programName (Command.suggestions word))

end LaneAsm.Cli
