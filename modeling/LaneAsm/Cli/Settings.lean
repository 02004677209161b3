import LaneAsm.Cli.Flag
import LaneAsm.Json.Parser
import LaneAsm.Text.Blank
import LaneAsm.Text.Lower
import LaneAsm.Text.Split
import LaneAsm.Text.Utf8

/-!
Settings. A flag that was given wins over the environment, that over the configuration file, and
that over the default. Configuration files hold keys with values; keys ignore case.
-/
namespace LaneAsm.Cli

/-- The formats of configuration files. -/
inductive ConfigFormat where
  | yaml
  | toml
  | json
deriving Repr, DecidableEq

/-- What follows the last dot in the last part of a path. -/
def pathSuffix (path : String) : String :=
  let base := (path.toList.reverse.takeWhile (· ≠ '/')).reverse
  if base.contains '.' then String.ofList (base.reverse.takeWhile (· ≠ '.')).reverse else ""

/-- The format of a configuration file, by the suffix of its name. -/
def ConfigFormat.ofPath? (path : String) : Option ConfigFormat :=
  match pathSuffix path with
  | "yaml" | "yml" => some .yaml
  | "toml" => some .toml
  | "json" => some .json
  | _ => none

/-- A value of a configuration file as text. Quotes around it are dropped, and without them a
comment behind it; a missing value is no value. -/
def scalar? (s : List Char) : Option String :=
  match Text.trim s with
  | [] => none
  | '"' :: r => some (String.ofList (r.takeWhile (· ≠ '"')))
  | '\x27' :: r => some (String.ofList (r.takeWhile (· ≠ '\x27')))
  | s =>
    let bare := String.ofList (Text.trim (Text.before [' ', '#'] s))
    if s.head? = some '#' || bare = "~" || bare = "null" then none
    else if bare = "True" || bare = "TRUE" then some "true"
    else if bare = "False" || bare = "FALSE" then some "false"
    else some bare

/-- The pairs of a file with one key and value on each line. -/
def readPairs (sep : Char) (s : List Char) : List (String × String) :=
  (Text.lines '\n' s).filterMap fun line => do
    let line := Text.trim line
    if line.head? = some '#' then none
    else
      let (key, value) ← Text.cut? sep line
      let key := (Text.trim key).filter fun c => c ≠ '"' && c ≠ '\x27'
      return (String.ofList (Text.lower key), ← scalar? value)

/-- The text of a simple value of a document. -/
def jsonScalar? : Json → Option String
  | .bool b => some (if b then "true" else "false")
  | .num text => some text
  | .str s => some s
  | _ => none

/-- What is wrong with a stray byte in front of some bytes. A leading byte tells how many others
should follow it. -/
def strayProblem (b : UInt8) (r : List UInt8) : String :=
  let more : Nat := if b < 0xE0 then 1 else if b < 0xF0 then 2 else 3
  if b < 0xC0 ∨ 0xF8 ≤ b then "invalid leading UTF-8 octet"
  else if r.length < more then "incomplete UTF-8 octet sequence"
  else if !(r.take more).all Text.isContinuation then "invalid trailing UTF-8 octet"
  else if b < 0xC2 ∨ (b = 0xE0 ∧ r.headD 0 < 0xA0) ∨ (b = 0xF0 ∧ r.headD 0 < 0x90) then
    "invalid length of a UTF-8 sequence"
  else "invalid Unicode character"

/-- Whether a character may stand in a YAML file. -/
def inYaml (c : Char) : Bool :=
  let n := c.toNat
  n == 0x09 || n == 0x0A || n == 0x0D || (0x20 ≤ n && n ≤ 0x7E) || n == 0x85
    || (0xA0 ≤ n && n ≤ 0xFFFD && n != 0xFEFF) || 0x10000 ≤ n

/-- What keeps a text from being a YAML file, if anything does. -/
def yamlProblem? : RawText → Option String
  | [] => none
  | .char c :: r => if inYaml c then yamlProblem? r else some "control characters are not allowed"
  | .stray b :: r => some (strayProblem b (r.flatMap Symbol.toUtf8))

/-- A text without the byte order mark that may start it. -/
def dropByteOrderMark (s : RawText) : RawText :=
  if s.head? = some (.char (Char.ofNat 0xFEFF)) then s.drop 1 else s

/-- The pairs of a configuration file. -/
def ConfigFormat.read (f : ConfigFormat) (s : RawText) : Except String (List (String × String)) :=
  match f with
  | .yaml =>
    let s := dropByteOrderMark s
    match yamlProblem? s with
    | some problem => .error ("While parsing config: yaml: " ++ problem)
    | none => .ok (readPairs ':' s.chars)
  | .toml => .ok (readPairs '=' s.chars)
  | .json =>
    match Json.parse s with
    | .error e => .error ("While parsing config: " ++ e.message)
    | .ok (.obj members) =>
      .ok (members.filterMap fun (k, v) => do
        return (String.ofList (Text.lower k.toList), ← jsonScalar? v))
    | .ok _ => .ok []

/-- Where settings come from. -/
structure Settings where
  parsed : Parsed
  env : String → Option String
  config : List (String × String)

namespace Settings

/-- The variable of the environment for a setting. -/
def variableName (key : String) : String := "RTASM_" ++ key.toUpper

/-- The default of a setting. -/
def default : String → String
  | "target" => "x86_64-sse2-128"
  | "log" => "warn"
  | _ => ""

/-- The value of a setting. An empty variable counts as unset. -/
def get (s : Settings) (key : String) : String :=
  match s.parsed.text? key with
  | some v => v
  | none =>
    match s.env (variableName key) with
    | some v => if v = "" then fromFile else v
    | none => fromFile
where
  /-- The value in the configuration file, or else the default. -/
  fromFile : String := (s.config.reverse.lookup key).getD (default key)

/-- Whether a setting is on; what is not a truth value is off. -/
def isOn (s : Settings) (key : String) : Bool := (readBool? (s.get key)).getD false

end Settings

end LaneAsm.Cli
