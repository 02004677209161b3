import LaneAsm.Error

/-!
Log levels. A level is a number that grows with the weight of a record; six of them have names.
-/
namespace LaneAsm

/-- A log level. -/
abbrev LogLevel := Int

namespace LogLevel

def trace : LogLevel := -8
def debug : LogLevel := -4
def info : LogLevel := 0
def warn : LogLevel := 4
def error : LogLevel := 8
def crit : LogLevel := 12

/-- The lowest level of all. -/
def everything : LogLevel := -(2 ^ 63)

/-- The levels with names, and the names in lower case. -/
def named : List (LogLevel × String) :=
  [(trace, "trace"), (debug, "debug"), (info, "info"), (warn, "warn"), (error, "error"),
    (crit, "crit")]

/-- The name of a level. -/
def text (l : LogLevel) : String := (named.lookup l).getD "unknown"

/-- The name of a level in upper case and five characters wide. -/
def aligned (l : LogLevel) : String :=
  match named.lookup l with
  | some name => (name.toUpper ++ "     ").take 5 |>.toString
  | none => "unknown level"

/-- A character in upper case, where that is an ASCII letter; two letters outside ASCII have one. -/
def upperChar (c : Char) : Char :=
  if c.toNat = 0x131 then 'I' else if c.toNat = 0x17F then 'S' else c.toUpper

/-- The level that a word asks for, in any case. -/
def parse (s : String) : Except Error LogLevel :=
  match String.ofList (s.toList.map upperChar) with
  | "MAX" | "MAXVERBOSITY" => .ok everything
  | "TRACE" => .ok trace
  | "DEBUG" => .ok debug
  | "INFO" => .ok info
  | "WARN" | "WARNING" => .ok warn
  | "ERROR" => .ok error
  | "CRIT" | "CRITICAL" => .ok crit
  | _ => .error (.plain ("invalid level: " ++ s))

/-- A text in the colour of a level. -/
def color (l : LogLevel) (s : String) : String :=
  let code := if crit ≤ l then "35" else if error ≤ l then "31" else if warn ≤ l then "33"
    else if info ≤ l then "32" else "36"
  "\x1b[" ++ code ++ "m" ++ s ++ "\x1b[0m"

end LogLevel

end LaneAsm
