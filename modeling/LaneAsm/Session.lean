import LaneAsm.Disassembly
import LaneAsm.Encoder
import LaneAsm.Tools

/-!
Interactive sessions: lines of a listing entered one by one for a target, with commands to look at
what was entered. A line that is encoded, or that jumps, is remembered.
-/
namespace LaneAsm

/-- A session: the target, and the lines remembered so far. -/
structure Session where
  target : Config
  lines : List RawText

/-- What becomes of a session after a line. -/
inductive Ending where
  | goesOn
  | quit
  | trapped
deriving Repr, DecidableEq

/-- What a session answers to a line. -/
structure Reply where
  text : String
  ending : Ending
  session : Session

namespace Session

/-- What the command for help prints. -/
def help : String :=
  "  <instruction>      encode one line, e.g. addox_rr Xmm1, Xmm2\n" ++
  "  !<javascript>      run a generator; each emit(line) is entered\n" ++
  "  :target <profile>  switch target\n" ++
  "  :list              encode and disassemble everything entered so far\n" ++
  "  :reset             forget entered lines\n" ++
  "  :quit              leave\n"

/-- The session goes on after printing a text. -/
def say (s : Session) (text : String) : Reply := ⟨text, .goesOn, s⟩

/-- The session goes on after a fault, unless that is a trap. -/
def complain (s : Session) : Fault → Reply
  | .error e => s.say ("error: " ++ e.message ++ "\n")
  | .trap => ⟨"", .trapped, s⟩

/-- The session with one more line. -/
def remember (s : Session) (line : RawText) : Session := { s with lines := s.lines ++ [line] }

/-- The code of all lines of a session. -/
def code (s : Session) : Except Fault Bytes :=
  encode s.target ([.char '\n'].intercalate s.lines)

/-- Answers a command, whose word starts with a colon. -/
def command (t : Tools) (s : Session) (word arg : RawText) : Reply :=
  match word.text with
  | ":quit" | ":q" => ⟨"", .quit, s⟩
  | ":help" => s.say help
  | ":target" =>
    match t.catalog.find arg.trim.text with
    | .ok cfg => { s with target := cfg }.say ("target " ++ cfg.name ++ "\n")
    | .error e => s.complain (.error e)
  | ":reset" => { s with lines := [] }.say ""
  | ":list" =>
    match s.code with
    | .ok code => s.say (disassemble t.decoder s.target.isa code)
    | .error f => s.complain f
  | word => s.say ("unknown command " ++ word ++ "\n")

/-- Answers a line of a listing. A jump whose label is not on the line is remembered all the same. -/
def instruction (s : Session) (line : RawText) : Reply :=
  match Listing.parse line with
  | .error f => s.complain f
  | .ok l =>
    match l.lines with
    | [] => (s.remember line).say ""
    | first :: _ =>
      match l.encode s.target with
      | .ok code => (s.remember line).say (Text.hexBytes code.toList ++ "\n")
      | .error .trap => s.complain .trap
      | .error (.error e) =>
        if first.target = [] then s.complain (.error e)
        else (s.remember line).say "(branch resolved by :list)\n"

/-- Answers a trimmed line that is not a script. -/
def plainLine (t : Tools) (s : Session) (line : RawText) : Reply :=
  if line.isEmpty then s.say ""
  else
    let word := line.takeWhile (· ≠ .char ' ')
    if word.head? = some (.char ':') then s.command t word ((line.dropWhile (· ≠ .char ' ')).drop 1)
    else s.instruction line

/-- Answers lines one after the other with `answer`, up to one that ends the session. -/
def each (answer : Session → RawText → Reply) : Session → List RawText → Reply
  | s, [] => s.say ""
  | s, line :: rest =>
    let r := answer s line
    match r.ending with
    | .goesOn =>
      let r' := each answer r.session rest
      { r' with text := r.text ++ r'.text }
    | _ => r

/-- Answers a line. Scripts may enter scripts, `depth` times deep. -/
def evalTo (t : Tools) : (depth : Nat) → Session → RawText → Reply
  | depth, s, line =>
    match line.trim with
    | .char '!' :: script =>
      match Script.generate t.engine (RawText.chars script), depth with
      | .error text, _ => s.say ("error: " ++ text ++ "\n")
      | .ok _, 0 => s.say ("error: script: " ++ Script.Failure.endless.message ++ "\n")
      | .ok text, depth + 1 =>
        s.each (evalTo t depth) (Text.splitAt (.char '\n') (RawText.ofChars text))
    | line => s.plainLine t line

/-- How deep scripts may enter scripts. -/
def scriptDepth : Nat := 1000

/-- Answers a line. -/
def eval (t : Tools) (s : Session) (line : RawText) : Reply := s.evalTo t scriptDepth line

end Session

end LaneAsm
