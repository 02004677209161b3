/-!
The tokens of scripts.
-/
namespace LaneAsm.Script

inductive Token where
  | int (n : Nat)
  | str (s : String)
  | word (name : String)
  | mark (text : String)
deriving Repr, DecidableEq

/-- Whether a character can stand in a word. -/
def isWordChar (c : Char) : Bool := c.isAlphanum || c = '_' || c = '$'

/-- The character of a one-letter escape. -/
def unescape (c : Char) : Char :=
  match c with
  | 'n' => '\n'
  | 't' => '\t'
  | 'r' => '\r'
  | 'b' => '\x08'
  | 'f' => '\x0c'
  | 'v' => '\x0b'
  | '0' => '\x00'
  | c => c

/-- A string up to its closing quote, after the characters in `acc`, the last of them first. -/
def readQuoted (close : Char) : (acc : List Char) → List Char → Option (String × List Char)
  | _, [] => none
  | acc, '\\' :: c :: r => readQuoted close (unescape c :: acc) r
  | acc, c :: r =>
    if c = close then some (String.ofList acc.reverse, r)
    else if c = '\n' then none
    else readQuoted close (c :: acc) r

/-- The text after a comment that ends in `*/`. -/
def skipComment : List Char → List Char
  | '*' :: '/' :: r => r
  | _ :: r => skipComment r
  | [] => []

/-- The value of decimal digits. -/
def decimal (digits : List Char) : Nat := digits.foldl (fun n c => n * 10 + (c.toNat - 48)) 0

/-- The tokens of a text; every step takes one unit of fuel and at least one character. -/
def tokenize : (fuel : Nat) → List Char → Option (List Token)
  | 0, _ => none
  | _ + 1, [] => some []
  | fuel + 1, c :: r =>
    match c, r with
    | '/', '/' :: r => tokenize fuel (r.dropWhile (· ≠ '\n'))
    | '/', '*' :: r => tokenize fuel (skipComment r)
    | '+', '+' :: r => (tokenize fuel r).map (.mark "++" :: ·)
    | c, r =>
      if c.isWhitespace then tokenize fuel r
      else if c = '"' || c = '\x27' then do
        let (s, r) ← readQuoted c [] r
        return .str s :: (← tokenize fuel r)
      else if c.isDigit then
        (tokenize fuel (r.dropWhile Char.isDigit)).map
          (.int (decimal (c :: r.takeWhile Char.isDigit)) :: ·)
      else if isWordChar c then
        (tokenize fuel (r.dropWhile isWordChar)).map
          (.word (String.ofList (c :: r.takeWhile isWordChar)) :: ·)
      else (tokenize fuel r).map (.mark c.toString :: ·)

end LaneAsm.Script
