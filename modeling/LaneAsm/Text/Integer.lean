import LaneAsm.Instances

/-!
Reading integers. The leading characters choose the base: `0x` sixteen, `0b` two, `0o` or a bare
`0` eight, and otherwise ten. Underscores may stand between digits and after the base.
-/
namespace LaneAsm.Text

/-- Why a text is not an integer of the wanted range. -/
inductive NumberError where
  | syntactic
  | range
deriving Repr, DecidableEq

/-- The value of a letter or digit as a digit of some base up to 36. -/
def digitValue? (c : Char) : Option Nat :=
  let n := c.toNat
  if 48 ≤ n && n ≤ 57 then some (n - 48)
  else if 97 ≤ n && n ≤ 122 then some (n - 87)
  else if 65 ≤ n && n ≤ 90 then some (n - 55)
  else none

/-- Reads digits of a base after those with value `acc`, skipping underscores. A value above
`bound` is reported where it arises, before the rest is looked at. -/
def readDigits (base bound : Nat) : (acc : Nat) → List Char → Except NumberError Nat
  | acc, [] => .ok acc
  | acc, c :: r =>
    if c = '_' then readDigits base bound acc r
    else match digitValue? c with
      | none => .error .syntactic
      | some d =>
        if base ≤ d then .error .syntactic
        else if bound < acc * base + d then .error .range
        else readDigits base bound (acc * base + d) r

/-- The base that the leading characters of a number choose, and the digits after them. -/
def splitBase : List Char → Nat × List Char
  | '0' :: c :: d :: r =>
    if c.toLower = 'b' then (2, d :: r)
    else if c.toLower = 'o' then (8, d :: r)
    else if c.toLower = 'x' then (16, d :: r)
    else (8, c :: d :: r)
  | '0' :: r => (8, r)
  | s => (10, s)

/-- What stands before a character of a number, as far as underscores care. -/
inductive DigitContext where
  | start
  | digit
  | underscore
  | other
deriving Repr, DecidableEq

/-- Whether every underscore stands after a digit or the base and before a digit. -/
def underscoresOk (hexadecimal : Bool) : DigitContext → List Char → Bool
  | ctx, [] => ctx != .underscore
  | ctx, c :: r =>
    if c.isDigit || (hexadecimal && 'a' ≤ c.toLower && c.toLower ≤ 'f') then
      underscoresOk hexadecimal .digit r
    else if c = '_' then ctx == .digit && underscoresOk hexadecimal .underscore r
    else ctx != .underscore && underscoresOk hexadecimal .other r

/-- Whether the underscores of an unsigned number are well placed. -/
def underscoresPlaced : List Char → Bool
  | '0' :: c :: r =>
    if c.toLower = 'b' || c.toLower = 'o' then underscoresOk false .digit r
    else if c.toLower = 'x' then underscoresOk true .digit r
    else underscoresOk false .start ('0' :: c :: r)
  | s => underscoresOk false .start s

/-- Reads an unsigned number of at most `bound`. -/
def readNat (bound : Nat) (s : List Char) : Except NumberError Nat :=
  if s.isEmpty then .error .syntactic
  else do
    let (base, digits) := splitBase s
    let n ← readDigits base bound 0 digits
    if s.contains '_' && !underscoresPlaced s then .error .syntactic else .ok n

/-- Reads a signed number of 64 bits. -/
def readInt64 (s : List Char) : Except NumberError Int :=
  let (negative, body) := match s with
    | '-' :: r => (true, r)
    | '+' :: r => (false, r)
    | r => (false, r)
  do
    let n ← readNat (2 ^ 64 - 1) body
    if negative then
      if 2 ^ 63 < n then .error .range else .ok (-(n : Int))
    else if 2 ^ 63 ≤ n then .error .range else .ok n

/-- Reads an unsigned number of 64 bits. -/
def readUInt64 (s : List Char) : Except NumberError UInt64 :=
  (readNat (2 ^ 64 - 1) s).map UInt64.ofNat

end LaneAsm.Text
