import LaneAsm.Operand.Check
import LaneAsm.Text.Blank
import LaneAsm.Text.Integer
import LaneAsm.Text.Lower
import LaneAsm.Text.Split

/-!
The texts of operands: registers such as `Xmm1` and `Rebp`, immediates such as `IB(3)` and memory
references such as `[Rebp + Resi + DP(0x40)]`.
-/
namespace LaneAsm.Listing

open Text

/-- A text that is no operand of the wanted kind. -/
def malformed {α : Type} (s : RawText) : Except Error α := Error.fail (.malformed s)

/-- The register of a name in lower case. -/
def regOfName? (l : List Char) : Option Reg :=
  match Reg.baseNames.findIdx? fun name => lower name.toList == l with
  | some i => some (.base i)
  | none =>
    match l with
    | ['x', 'm', 'm', c] => (hexDigit? c).map fun i => .xmm i
    | _ => none
where
  /-- The value of a hexadecimal digit in lower case. -/
  hexDigit? (c : Char) : Option Nat :=
    if c.isDigit then some (c.toNat - 48)
    else if 'a' ≤ c && c ≤ 'f' then some (c.toNat - 87)
    else none

/-- Reads a register: `Xmm` and a hexadecimal digit, or the name of a base register. -/
def parseReg (s : RawText) : Except Error Reg :=
  match regOfName? (lower s.trim.chars) with
  | some r => .ok r
  | none => malformed s

/-- Splits a text such as `IB(3)` into its name in lower case and its value. -/
def call? (s : RawText) : Option (List Char × Int) := do
  let (name, rest) ← cut? (.char '(') s
  if rest.getLast? = some (.char ')') then
    let value ← (readInt64 (RawText.trim rest.dropLast).chars).toOption
    return (lower (RawText.trim name).chars, value)
  else none

/-- The immediate class of a name in lower case. -/
def immClass? (name : List Char) : Option ImmClass :=
  ImmClass.named.find? fun c => lower c.text.toList == name

/-- The displacement class of a name in lower case. -/
def dispClass? (name : List Char) : Option DispClass :=
  DispClass.named.find? fun c => lower c.text.toList == name

/-- Reads an immediate; a bare number is of the class `IV`. -/
def parseImm (s : RawText) : Except Error Imm := do
  let s := s.trim
  let imm ← match call? s with
    | some (name, value) =>
      match immClass? name with
      | some c => pure (⟨value, c⟩ : Imm)
      | none => malformed s
    | none =>
      match readInt64 s.chars with
      | .ok value => pure ⟨value, .iv⟩
      | .error _ => malformed s
  imm.check
  return imm

/-- A part of a memory reference. -/
inductive MemPart where
  | reg (r : Reg)
  | disp (d : Disp)
deriving Repr, DecidableEq

/-- Reads a part of a memory reference. -/
def memPart? (part : RawText) : Option MemPart :=
  let part := part.trim
  match call? part with
  | some (name, value) => (dispClass? name).map fun c => .disp ⟨value, c⟩
  | none =>
    match (parseReg part).toOption with
    | some r => if r.kind = .base then some (.reg r) else none
    | none => none

/-- The reference of its parts: one or two registers, and at most one displacement. -/
def memOfParts? (parts : List MemPart) : Option Mem :=
  let regs := parts.filterMap fun | .reg r => some r | .disp _ => none
  let disps := parts.filterMap fun | .disp d => some d | .reg _ => none
  match regs, disps with
  | [base], [] => some (.plain base ⟨0, .dp⟩)
  | [base], [d] => some (.plain base d)
  | [base, index], [] => some (.indexed base index ⟨0, .dp⟩)
  | [base, index], [d] => some (.indexed base index d)
  | _, _ => none

/-- Reads a memory reference: parts joined by `+` between brackets. -/
def parseMem (s : RawText) : Except Error Mem := do
  let s := s.trim
  let found : Option Mem := do
    let .char '[' :: inside := s | none
    if inside.getLast? = some (.char ']') then
      memOfParts? (← (splitAt (.char '+') inside.dropLast).mapM memPart?)
    else none
  match found with
  | some m =>
    m.check
    return m
  | none => malformed s

/-- Reads an operand; its first letters tell its kind. -/
def parseOperand (s : RawText) : Except Error Operand :=
  let s := s.trim
  match s with
  | .char '[' :: _ => (parseMem s).map .mem
  | _ =>
    let number := match s with
      | .char c :: _ => c.isDigit || c == '-'
      | _ => false
    if number || s.contains (.char '(') then (parseImm s).map .imm else (parseReg s).map .reg

end LaneAsm.Listing
