import LaneAsm.Text.Integer
import LaneAsm.Text.Quoted
import LaneAsm.Text.Utf8

/-!
Flags of a command line. A flag is written `--name value`, `--name=value`, or with its letter
`-o value`, `-ovalue` or `-o=value`; switches need no value. Flags and arguments may be mixed, and
`--` ends the flags.
-/
namespace LaneAsm.Cli

/-- What a flag takes. A switch alone means `true`. -/
inductive FlagKind where
  | text
  | integer
  | switch
deriving Repr, DecidableEq

/-- A flag that a command knows. -/
structure Flag where
  name : String
  letter? : Option Char
  kind : FlagKind
deriving Repr, DecidableEq

/-- The value given for a flag. -/
inductive FlagValue where
  | text (s : String)
  | integer (n : Int)
  | switch (b : Bool)
deriving Repr, DecidableEq

/-- Why a command line cannot be read. -/
inductive UsageError where
  | badFlag (arg : String)
  | unknownFlag (name : String)
  | unknownLetter (letter : Char) (letters : String)
  | needsValue (arg : String)
  | letterNeedsValue (letter : Char) (letters : String)
  | badValue (value : String) (flag : Flag) (reason : String)
  | unknownCommand (name owner : String) (suggestions : List String)
  | atMost (limit count : Nat)
  | exactly (want count : Nat)
deriving Repr, DecidableEq

/-- A flag as messages name it. -/
def Flag.label (f : Flag) : String :=
  match f.letter? with
  | some c => "-" ++ c.toString ++ ", --" ++ f.name
  | none => "--" ++ f.name

/-- The first byte of a letter as a character between single quotes. -/
def quoteLetter (c : Char) : String :=
  Text.quoteSingle (((Text.toUtf8 c.toString).head?.map fun b => Char.ofNat b.toNat).getD c)

def UsageError.message : UsageError → String
  | .badFlag arg => "bad flag syntax: " ++ arg
  | .unknownFlag name => "unknown flag: --" ++ name
  | .unknownLetter c letters => "unknown shorthand flag: " ++ quoteLetter c ++ " in -" ++ letters
  | .needsValue arg => "flag needs an argument: " ++ arg
  | .letterNeedsValue c letters =>
    "flag needs an argument: " ++ quoteLetter c ++ " in -" ++ letters
  | .badValue value flag reason =>
    "invalid argument " ++ Text.quote value.toList ++ " for " ++ Text.quote flag.label.toList
      ++ " flag: " ++ reason
  | .unknownCommand name owner suggestions =>
    "unknown command " ++ Text.quote name.toList ++ " for " ++ Text.quote owner.toList
      ++ (if suggestions.isEmpty then ""
        else "\n\nDid you mean this?\n" ++ String.join (suggestions.map ("\t" ++ · ++ "\n")))
  | .atMost limit count =>
    "accepts at most " ++ toString limit ++ " arg(s), received " ++ toString count
  | .exactly want count => "accepts " ++ toString want ++ " arg(s), received " ++ toString count

/-- The truth value that a word stands for. -/
def readBool? (s : String) : Option Bool :=
  if ["1", "t", "T", "TRUE", "true", "True"].contains s then some true
  else if ["0", "f", "F", "FALSE", "false", "False"].contains s then some false
  else none

/-- The value that a text is for a flag. -/
def Flag.read (f : Flag) (value : String) : Except UsageError FlagValue :=
  let refuse (what reason : String) : Except UsageError FlagValue :=
    .error (.badValue value f
      ("strconv." ++ what ++ ": parsing " ++ Text.quote value.toList ++ ": " ++ reason))
  match f.kind with
  | .text => .ok (.text value)
  | .integer =>
    match Text.readInt64 value.toList with
    | .ok n => .ok (.integer n)
    | .error .syntactic => refuse "ParseInt" "invalid syntax"
    | .error .range => refuse "ParseInt" "value out of range"
  | .switch =>
    match readBool? value with
    | some b => .ok (.switch b)
    | none => refuse "ParseBool" "invalid syntax"

/-- Flags given on a command line, in order. -/
abbrev Given := List (String × FlagValue)

/-- Reads a flag written with its name. The result has the number of further arguments used. -/
def readLong (flags : List Flag) (arg : String) (next? : Option String) :
    Except UsageError (Given × Nat) :=
  let body := arg.toList.drop 2
  if body.head? = none || body.head? = some '-' || body.head? = some '=' then
    .error (.badFlag arg)
  else
    let name := String.ofList (body.takeWhile (· ≠ '='))
    match flags.find? (·.name == name), body.dropWhile (· ≠ '=') with
    | none, _ => .error (.unknownFlag name)
    | some f, _ :: value => do return ([(name, ← f.read (String.ofList value))], 0)
    | some f, [] =>
      if f.kind = .switch then do return ([(name, ← f.read "true")], 0)
      else match next? with
        | some value => do return ([(name, ← f.read value)], 1)
        | none => .error (.needsValue arg)

/-- Reads flags written with their letters, one after the other. The result has the number of
further arguments used. -/
def readLetters (flags : List Flag) (next? : Option String) :
    List Char → Except UsageError (Given × Nat)
  | [] => .ok ([], 0)
  | c :: r =>
    match flags.find? (·.letter? == some c) with
    | none => .error (.unknownLetter c (String.ofList (c :: r)))
    | some f =>
      match r with
      | '=' :: d :: value => do return ([(f.name, ← f.read (String.ofList (d :: value)))], 0)
      | r =>
        if f.kind = .switch then do
          let v ← f.read "true"
          let (given, used) ← readLetters flags next? r
          return ((f.name, v) :: given, used)
        else if !r.isEmpty then do return ([(f.name, ← f.read (String.ofList r))], 0)
        else match next? with
          | some value => do return ([(f.name, ← f.read value)], 1)
          | none => .error (.letterNeedsValue c (String.ofList (c :: r)))

/-- A command line that was read: the flags given and the arguments. -/
structure Parsed where
  given : Given
  args : List String

/-- Whether an argument is a flag; a lone dash is not. -/
def isFlag (arg : String) : Bool := arg.startsWith "-" && arg ≠ "-"

/-- Reads the arguments of a command that knows some flags. -/
def readArgs (flags : List Flag) : List String → Except UsageError Parsed
  | [] => .ok ⟨[], []⟩
  | arg :: rest =>
    if arg = "--" then .ok ⟨[], rest⟩
    else if isFlag arg then do
      let (given, used) ← if arg.startsWith "--" then readLong flags arg rest.head?
        else readLetters flags rest.head? (arg.toList.drop 1)
      let p ← readArgs flags (rest.drop used)
      return { p with given := given ++ p.given }
    else do
      let p ← readArgs flags rest
      return { p with args := arg :: p.args }
termination_by args => args.length
decreasing_by all_goals simp only [List.length_drop, List.length_cons]; omega

namespace Parsed

/-- The value given last for a flag. -/
def value? (p : Parsed) (name : String) : Option FlagValue := p.given.reverse.lookup name

/-- The text given for a flag. -/
def text? (p : Parsed) (name : String) : Option String :=
  match p.value? name with
  | some (.text s) => some s
  | some (.switch b) => some (if b then "true" else "false")
  | _ => none

def textD (p : Parsed) (name default : String) : String := (p.text? name).getD default

/-- Whether a switch is on; it is off if it was not given. -/
def switch (p : Parsed) (name : String) : Bool := p.value? name == some (.switch true)

def integerD (p : Parsed) (name : String) (default : Int) : Int :=
  match p.value? name with
  | some (.integer n) => n
  | _ => default

end Parsed

end LaneAsm.Cli
