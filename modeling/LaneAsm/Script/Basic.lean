import LaneAsm.Text.Hex

/-!
Generator scripts: programs that emit the lines of a listing. They are written in a small part of
JavaScript: integers and strings, sums and products, counting loops, `hex` and `emit`.
-/
namespace LaneAsm.Script

/-- An expression. -/
inductive Expr where
  | int (n : Int)
  | str (s : String)
  | var (name : String)
  | neg (e : Expr)
  | add (a b : Expr)
  | sub (a b : Expr)
  | mul (a b : Expr)
  /-- The text of a number in hexadecimal. -/
  | hex (e : Expr)
deriving Repr, DecidableEq, Inhabited

/-- A statement. -/
inductive Stmt where
  | skip
  | discard (e : Expr)
  | emit (e : Expr)
  | assign (name : String) (e : Expr)
  | seq (first second : Stmt)
  /-- As long as `low` is less than `high`, the body and then one more in `counter`. -/
  | loop (low high : Expr) (counter : String) (body : Stmt)
deriving Repr, DecidableEq, Inhabited

/-- What an expression is worth. -/
inductive Value where
  | int (n : Int)
  | str (s : String)
deriving Repr, DecidableEq

def Value.text : Value → String
  | .int n => toString n
  | .str s => s

/-- Why a script fails. -/
inductive Failure where
  | malformed
  | undefined (name : String)
  | notNumber
  | endless
deriving Repr, DecidableEq

def Failure.message : Failure → String
  | .malformed => "SyntaxError"
  | .undefined name => "ReferenceError: " ++ name ++ " is not defined"
  | .notNumber => "TypeError: not a number"
  | .endless => "too many steps"

/-- The variables of a script, and the lines emitted so far, the last one first. -/
structure State where
  vars : List (String × Value)
  lines : List String

namespace Expr

/-- The number that a value is. -/
def asInt : Value → Except Failure Int
  | .int n => .ok n
  | .str _ => .error .notNumber

/-- The value of an expression. A sum with a string in it joins texts. -/
def eval (vars : List (String × Value)) : Expr → Except Failure Value
  | .int n => .ok (.int n)
  | .str s => .ok (.str s)
  | .var name =>
    match vars.lookup name with
    | some v => .ok v
    | none => .error (.undefined name)
  | .neg e => do return .int (-(← asInt (← e.eval vars)))
  | .add a b => do
    let x ← a.eval vars
    let y ← b.eval vars
    match x, y with
    | .int x, .int y => return .int (x + y)
    | x, y => return .str (x.text ++ y.text)
  | .sub a b => do
    let x ← asInt (← a.eval vars)
    return .int (x - (← asInt (← b.eval vars)))
  | .mul a b => do
    let x ← asInt (← a.eval vars)
    return .int (x * (← asInt (← b.eval vars)))
  | .hex e => do
    let n ← asInt (← e.eval vars)
    return .str ("0x" ++ (if n < 0 then "-" else "") ++ String.ofList (Text.hexDigits n.natAbs))

end Expr

/-- Runs a step as long as a condition holds, a limited number of times. -/
def State.repeatWhile (condition : State → Except Failure Bool) (step : State → Except Failure State) :
    (limit : Nat) → State → Except Failure State
  | 0, _ => .error .endless
  | limit + 1, s => do
    if ← condition s then repeatWhile condition step limit (← step s) else return s

/-- Runs a statement; no loop may take more than `limit` rounds. -/
def Stmt.exec (limit : Nat) : Stmt → State → Except Failure State
  | .skip, s => .ok s
  | .discard e, s => do
    let _ ← e.eval s.vars
    return s
  | .emit e, s => do return { s with lines := (← e.eval s.vars).text :: s.lines }
  | .assign name e, s => do return { s with vars := (name, ← e.eval s.vars) :: s.vars }
  | .seq a b, s => do b.exec limit (← a.exec limit s)
  | .loop low high counter body, s =>
    s.repeatWhile (fun s => do
        let a ← Expr.asInt (← low.eval s.vars)
        return a < (← Expr.asInt (← high.eval s.vars)))
      (fun s => do
        let s ← body.exec limit s
        let n ← Expr.asInt (← (Expr.var counter).eval s.vars)
        return { s with vars := (counter, .int (n + 1)) :: s.vars })
      limit

end LaneAsm.Script
