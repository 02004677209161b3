import LaneAsm.Script.Basic
import LaneAsm.Script.Token

/-!
Reading and running scripts.
-/
namespace LaneAsm.Script

mutual

/-- A sum. Every call of these readers takes one unit of fuel. -/
def readExpr : (fuel : Nat) → List Token → Option (Expr × List Token)
  | 0, _ => none
  | fuel + 1, ts => do
    let (e, ts) ← readProduct fuel ts
    readTerms fuel e ts

/-- The further terms of a sum. -/
def readTerms : (fuel : Nat) → Expr → List Token → Option (Expr × List Token)
  | 0, _, _ => none
  | fuel + 1, e, .mark "+" :: ts => do
    let (f, ts) ← readProduct fuel ts
    readTerms fuel (.add e f) ts
  | fuel + 1, e, .mark "-" :: ts => do
    let (f, ts) ← readProduct fuel ts
    readTerms fuel (.sub e f) ts
  | _ + 1, e, ts => some (e, ts)

/-- A product. -/
def readProduct : (fuel : Nat) → List Token → Option (Expr × List Token)
  | 0, _ => none
  | fuel + 1, ts => do
    let (e, ts) ← readPrimary fuel ts
    readFactors fuel e ts

/-- The further factors of a product. -/
def readFactors : (fuel : Nat) → Expr → List Token → Option (Expr × List Token)
  | 0, _, _ => none
  | fuel + 1, e, .mark "*" :: ts => do
    let (f, ts) ← readPrimary fuel ts
    readFactors fuel (.mul e f) ts
  | _ + 1, e, ts => some (e, ts)

/-- A literal, a variable, a negated expression, a call of `hex` or an expression in parentheses. -/
def readPrimary : (fuel : Nat) → List Token → Option (Expr × List Token)
  | 0, _ => none
  | _ + 1, .int n :: ts => some (.int n, ts)
  | _ + 1, .str s :: ts => some (.str s, ts)
  | fuel + 1, .mark "-" :: ts => do
    let (e, ts) ← readPrimary fuel ts
    return (.neg e, ts)
  | fuel + 1, .mark "(" :: ts => do
    match ← readExpr fuel ts with
    | (e, .mark ")" :: ts) => some (e, ts)
    | _ => none
  | fuel + 1, .word "hex" :: .mark "(" :: ts => do
    match ← readExpr fuel ts with
    | (e, .mark ")" :: ts) => some (.hex e, ts)
    | _ => none
  | _ + 1, .word name :: ts => some (.var name, ts)
  | _ + 1, _ => none

end

/-- An assignment, with or without the word that declares its variable. -/
def readAssign (fuel : Nat) : List Token → Option (Stmt × List Token)
  | .word "var" :: ts => readAssign fuel ts
  | .word name :: .mark "=" :: ts => do
    let (e, ts) ← readExpr fuel ts
    return (.assign name e, ts)
  | _ => none

mutual

/-- A statement. Every call of these two readers takes one unit of fuel. -/
def readStmt : (fuel : Nat) → List Token → Option (Stmt × List Token)
  | 0, _ => none
  | fuel + 1, ts =>
    match ts with
    | .mark ";" :: ts => some (.skip, ts)
    | .mark "\x7b" :: ts => do
      match ← readStmts fuel ts with
      | (body, .mark "\x7d" :: ts) => some (body, ts)
      | _ => none
    | .word "for" :: .mark "(" :: ts => do
      let (start, ts) ← readAssign fuel ts
      let .mark ";" :: ts := ts | none
      let (low, ts) ← readExpr fuel ts
      let .mark "<" :: ts := ts | none
      let (high, ts) ← readExpr fuel ts
      let .mark ";" :: .word counter :: .mark "++" :: .mark ")" :: ts := ts | none
      let (body, ts) ← readStmt fuel ts
      return (.seq start (.loop low high counter body), ts)
    | .word "emit" :: .mark "(" :: ts => do
      match ← readExpr fuel ts with
      | (e, .mark ")" :: ts) => some (.emit e, ts)
      | _ => none
    | ts =>
      match readAssign fuel ts with
      | some r => some r
      | none => do
        let (e, ts) ← readExpr fuel ts
        return (.discard e, ts)

/-- Statements up to a closing brace or the end. -/
def readStmts : (fuel : Nat) → List Token → Option (Stmt × List Token)
  | 0, _ => none
  | _ + 1, [] => some (.skip, [])
  | _ + 1, .mark "\x7d" :: ts => some (.skip, .mark "\x7d" :: ts)
  | fuel + 1, ts => do
    let (first, ts) ← readStmt fuel ts
    let (rest, ts) ← readStmts fuel ts
    return (.seq first rest, ts)

end

/-- The script that a text is. -/
def parse (src : List Char) : Except Failure Stmt :=
  match tokenize (src.length + 1) src with
  | none => .error .malformed
  | some ts =>
    match readStmts (8 * ts.length + 8) ts with
    | some (s, []) => .ok s
    | _ => .error .malformed

/-- How many rounds a loop may take. -/
def roundLimit : Nat := 1000000

/-- The lines that a script emits. -/
def emitted (src : List Char) : Except Failure (List String) := do
  let s ← (← parse src).exec roundLimit ⟨[], []⟩
  return s.lines.reverse

/-- An engine runs scripts: it gives the lines that a script emits, or the text of its error. -/
abbrev Engine := List Char → Except String (List String)

/-- The engine for the small part of the language. -/
def Engine.small : Engine := fun src => (emitted src).mapError Failure.message

/-- The listing that a script emits, or the text of its error. -/
def generate (engine : Engine) (src : List Char) : Except String (List Char) :=
  match engine src with
  | .ok lines => .ok (String.intercalate "\n" lines).toList
  | .error text => .error ("script: " ++ text)

end LaneAsm.Script
