import LaneAsm.Json.Basic
import LaneAsm.Text.Quoted
import LaneAsm.Text.Utf8

/-!
Reading JSON documents. A failure names the first symbol that no document can have there, and what
was being read.
-/
namespace LaneAsm.Json

/-- Why a text is not a document. -/
inductive SyntaxError where
  | ended
  /-- A symbol that cannot stand where it does. -/
  | unexpected (c : Symbol) (context : String)
deriving Repr, DecidableEq

/-- The first byte of a symbol, as a character, between single quotes. -/
def quoteByte (c : Symbol) : String :=
  match c.toUtf8 with
  | b :: _ =>
    let c := Char.ofNat b.toNat
    if c = '\x27' then "\x27\\\x27\x27"
    else "\x27" ++ String.ofList (if c = '"' then ['"'] else Text.quoteChar '"' c) ++ "\x27"
  | [] => "\x27\x27"

def SyntaxError.message : SyntaxError → String
  | .ended => "unexpected end of JSON input"
  | .unexpected c context => "invalid character " ++ quoteByte c ++ " " ++ context

/-- The text after the white space of JSON. -/
def skipBlank (s : RawText) : RawText :=
  s.dropWhile (· ∈ [.char ' ', .char '\t', .char '\r', .char '\n'])

/-! ### Strings -/

/-- A part of a string: a character, or a unit of two bytes that an escape spells. -/
inductive Piece where
  | char (c : Char)
  | unit (n : Nat)

/-- Where a reader stands in a string. -/
inductive StringState where
  | plain
  | escape
  /-- In an escape of four digits, with some digits to come after the next one. -/
  | digits (more value : Nat)

/-- The character of a one-letter escape. -/
def escaped? (c : Char) : Option Char :=
  match c with
  | '"' | '\\' | '/' => some c
  | 'b' => some '\x08'
  | 'f' => some '\x0c'
  | 'n' => some '\n'
  | 'r' => some '\r'
  | 't' => some '\t'
  | _ => none

/-- The parts of a string up to its closing quote, after those in `acc`, the last of them first. -/
def readPieces : StringState → (acc : List Piece) → RawText →
    Except SyntaxError (List Piece × RawText)
  | _, _, [] => .error .ended
  | .plain, acc, c :: r =>
    if c = .char '"' then .ok (acc.reverse, r)
    else if c = .char '\\' then readPieces .escape acc r
    else if c.toChar.toNat < 0x20 then .error (.unexpected c "in string literal")
    else readPieces .plain (.char c.toChar :: acc) r
  | .escape, acc, c :: r =>
    if c = .char 'u' then readPieces (.digits 3 0) acc r
    else match escaped? c.toChar with
      | some e => readPieces .plain (.char e :: acc) r
      | none => .error (.unexpected c "in string escape code")
  | .digits more value, acc, c :: r =>
    match Text.hexValue? c.toChar, more with
    | none, _ => .error (.unexpected c "in \\u hexadecimal character escape")
    | some d, 0 => readPieces .plain (.unit (value * 16 + d) :: acc) r
    | some d, more + 1 => readPieces (.digits more (value * 16 + d)) acc r

/-- The text of the parts of a string. Two units that form a surrogate pair are one character; a
surrogate without its partner is replaced. -/
def joinPieces : List Piece → List Char
  | [] => []
  | .char c :: r => c :: joinPieces r
  | .unit a :: .unit b :: r =>
    if 0xD800 ≤ a && a < 0xDC00 && 0xDC00 ≤ b && b < 0xE000 then
      Char.ofNat (0x10000 + (a - 0xD800) * 0x400 + (b - 0xDC00)) :: joinPieces r
    else (if 0xD800 ≤ a && a < 0xE000 then Symbol.replacement else Char.ofNat a)
      :: joinPieces (.unit b :: r)
  | .unit a :: r =>
    (if 0xD800 ≤ a && a < 0xE000 then Symbol.replacement else Char.ofNat a) :: joinPieces r

/-- A string after its opening quote. -/
def readString (s : RawText) : Except SyntaxError (String × RawText) := do
  let (pieces, r) ← readPieces .plain [] s
  return (String.ofList (joinPieces pieces), r)

/-! ### Numbers and words -/

/-- Where a reader stands in a number. -/
inductive NumberState where
  | start
  | sign
  | zero
  | whole
  | point
  | fraction
  | exponent
  | exponentSign
  | power
deriving DecidableEq

/-- The state after a character, if the number goes on with it. -/
def NumberState.next? (st : NumberState) (c : Char) : Option NumberState :=
  let exponential := c = 'e' || c = 'E'
  match st with
  | .start => if c = '-' then some .sign else if c = '0' then some .zero
      else if c.isDigit then some .whole else none
  | .sign => if c = '0' then some .zero else if c.isDigit then some .whole else none
  | .zero => if c = '.' then some .point else if exponential then some .exponent else none
  | .whole => if c.isDigit then some .whole else if c = '.' then some .point
      else if exponential then some .exponent else none
  | .point => if c.isDigit then some .fraction else none
  | .fraction => if c.isDigit then some .fraction else if exponential then some .exponent else none
  | .exponent => if c = '+' || c = '-' then some .exponentSign
      else if c.isDigit then some .power else none
  | .exponentSign => if c.isDigit then some .power else none
  | .power => if c.isDigit then some .power else none

/-- What a number lacks in a state, or `none` if it may end there. -/
def NumberState.lacks? : NumberState → Option String
  | .start | .sign => some "in numeric literal"
  | .point => some "after decimal point in numeric literal"
  | .exponent | .exponentSign => some "in exponent of numeric literal"
  | .zero | .whole | .fraction | .power => none

/-- The rest of a number, after the characters in `acc`, the last of them first. -/
def readNumber : NumberState → (acc : List Char) → RawText →
    Except SyntaxError (String × RawText)
  | st, acc, [] =>
    match st.lacks? with
    | some _ => .error .ended
    | none => .ok (String.ofList acc.reverse, [])
  | st, acc, c :: r =>
    match st.next? c.toChar, st.lacks? with
    | some st, _ => readNumber st (c.toChar :: acc) r
    | none, some context => .error (.unexpected c context)
    | none, none => .ok (String.ofList acc.reverse, c :: r)

/-- The rest of a word that stands for a value. -/
def readWord (word : String) (v : Json) : (expected : List Char) → RawText →
    Except SyntaxError (Json × RawText)
  | [], s => .ok (v, s)
  | _ :: _, [] => .error .ended
  | e :: es, c :: r =>
    if c = .char e then readWord word v es r
    else .error (.unexpected c
      ("in literal " ++ word ++ " (expecting " ++ Text.quoteSingle e ++ ")"))

/-! ### Values -/

/-- How many brackets may be open at once. -/
def maxDepth : Nat := 10000

mutual

/-- A value inside `depth` open brackets, and the text after it. Every call takes one unit of
fuel. -/
def readValue : (fuel depth : Nat) → RawText → Except SyntaxError (Json × RawText)
  | 0, _, _ => .error .ended
  | fuel + 1, depth, s =>
    match skipBlank s with
    | [] => .error .ended
    | c :: r =>
      if (c = .char '{' || c = .char '[') && maxDepth ≤ depth then
        .error (.unexpected c "exceeded max depth")
      else if c = .char '{' then
        match skipBlank r with
        | .char '}' :: r => .ok (.obj [], r)
        | r => do
          let (members, r) ← readMembers fuel (depth + 1) r
          return (.obj members, r)
      else if c = .char '[' then
        match skipBlank r with
        | .char ']' :: r => .ok (.arr [], r)
        | r => do
          let (items, r) ← readItems fuel (depth + 1) r
          return (.arr items, r)
      else if c = .char '"' then do
        let (text, r) ← readString r
        return (.str text, r)
      else if c = .char 't' then readWord "true" (.bool true) "rue".toList r
      else if c = .char 'f' then readWord "false" (.bool false) "alse".toList r
      else if c = .char 'n' then readWord "null" .null "ull".toList r
      else if c = .char '-' || c.toChar.isDigit then do
        let (text, r) ← readNumber .start [] (c :: r)
        return (.num text, r)
      else .error (.unexpected c "looking for beginning of value")

/-- The items of an array up to its closing bracket. -/
def readItems : (fuel depth : Nat) → RawText → Except SyntaxError (List Json × RawText)
  | 0, _, _ => .error .ended
  | fuel + 1, depth, s => do
    let (v, r) ← readValue fuel depth s
    match skipBlank r with
    | [] => .error .ended
    | c :: r =>
      if c = .char ',' then do
        let (vs, r) ← readItems fuel depth r
        return (v :: vs, r)
      else if c = .char ']' then .ok ([v], r)
      else .error (.unexpected c "after array element")

/-- The members of an object up to its closing brace. -/
def readMembers : (fuel depth : Nat) → RawText →
    Except SyntaxError (List (String × Json) × RawText)
  | 0, _, _ => .error .ended
  | fuel + 1, depth, s =>
    match skipBlank s with
    | [] => .error .ended
    | c :: r =>
      if c = .char '"' then do
        let (key, r) ← readString r
        match skipBlank r with
        | [] => .error .ended
        | c :: r =>
          if c = .char ':' then do
            let (v, r) ← readValue fuel depth r
            match skipBlank r with
            | [] => .error .ended
            | c :: r =>
              if c = .char ',' then do
                let (more, r) ← readMembers fuel depth r
                return ((key, v) :: more, r)
              else if c = .char '}' then .ok ([(key, v)], r)
              else .error (.unexpected c "after object key:value pair")
          else .error (.unexpected c "after object key")
      else .error (.unexpected c "looking for beginning of object key string")

end

/-- The document that a text is. -/
def parse (s : RawText) : Except SyntaxError Json := do
  let (v, r) ← readValue (2 * s.length + 2) 0 s
  match skipBlank r with
  | [] => return v
  | c :: _ => .error (.unexpected c "after top-level value")

end LaneAsm.Json
