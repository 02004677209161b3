import LaneAsm.Bytes
import LaneAsm.Text.Hex
import LaneAsm.Text.Lower
import LaneAsm.Text.Pad
import LaneAsm.X86.Form

/-!
Disassembly of x86-64 code. VEX instructions are named by the fields of their prefixes; the others are
left to a decoder, such as the one here for the instructions that the encoder uses. A byte that starts
neither is data.
-/
namespace LaneAsm.X86

/-- An instruction found in code: its length in bytes and its text. -/
structure Found where
  size : Nat
  text : String
deriving Repr, DecidableEq

/-- What finds the instruction at the front of some code, if there is one. -/
abbrev Decoder := List UInt8 → Option Found

/-- The length of the addressing bytes at the front of some code. -/
def addressingLength? : List UInt8 → Option Nat
  | [] => none
  | m :: rest =>
    let mode := m >>> 6
    let far : Nat := if mode = 1 then 1 else if mode = 2 ∨ (mode = 0 ∧ m &&& 7 = 5) then 4 else 0
    if mode = 3 then some 1
    else if m &&& 7 = 4 then
      match rest with
      | [] => none
      | s :: _ => some (2 + far + if mode = 0 ∧ s &&& 7 = 5 then 4 else 0)
    else some (1 + far)

/-- The fields of a VEX prefix that name an instruction. -/
structure VexFields where
  map : UInt8
  pre : UInt8
  wide : UInt8
  long : UInt8
deriving Repr, DecidableEq

/-- The fields of a VEX prefix and the code after it. -/
def vexFields? : List UInt8 → Option (VexFields × List UInt8)
  | 0xC5 :: a :: rest => some (⟨1, a &&& 3, 0, (a >>> 2) &&& 1⟩, rest)
  | 0xC4 :: a :: b :: rest => some (⟨a &&& 0x1F, b &&& 3, b >>> 7, (b >>> 2) &&& 1⟩, rest)
  | _ => none

/-- The name of a VEX instruction. -/
def VexFields.text (f : VexFields) (opcode : UInt8) : String :=
  "vex." ++ (if f.long = 0 then "128" else "256")
    ++ (["", ".66", ".f3", ".f2"][f.pre.toNat]?).getD ""
    ++ (["", ".0f", ".0f38", ".0f3a"][f.map.toNat]?).getD ""
    ++ ".w" ++ toString f.wide.toNat ++ " " ++ Text.hexPadded 2 opcode.toNat

/-- Whether an instruction of a map ends in an immediate byte. -/
def vexImmediate (map opcode : UInt8) : Bool :=
  map == 3 || (map == 1 && (opcode == 0xC2 || (0x71 ≤ opcode && opcode ≤ 0x73)))

/-- Reads a VEX instruction, perhaps behind the address-size prefix. -/
def decodeVex? (code : List UInt8) : Option Found := do
  let (short, body) := match code with
    | 0x67 :: rest => (1, rest)
    | code => (0, code)
  if body.length < 4 then none
  else
    let (f, rest) ← vexFields? body
    if f.map < 1 ∨ 3 < f.map ∨ rest.length < 2 then none
    else match rest with
      | [] => none
      | opcode :: rest =>
        let n ← addressingLength? rest
        let used := n + if vexImmediate f.map opcode then 1 else 0
        if rest.length < used then none
        else
          some ⟨code.length - rest.length + used,
            (if short = 1 then "addr32 " else "") ++ f.text opcode⟩

/-- The size of a register operand. -/
inductive Size where
  | byte
  | word
  | dword
  | qword
  | xmm
deriving Repr, DecidableEq

/-- The operands of an instruction that is named in full. -/
inductive Slot where
  | reg (s : Size)
  | rm (s : Size)
  | imm8
  | imm32
  | fixed (name : String)
deriving Repr, DecidableEq

/-- The names of the first eight general registers without their size letters. -/
def generalStems : List String := ["ax", "cx", "dx", "bx", "sp", "bp", "si", "di"]

/-- The name of a register of some size; `rex` says whether the low bytes of all registers can be
named. -/
def registerName (s : Size) (rex : Bool) (n : Nat) : String :=
  let stem := (generalStems[n]?).getD ""
  let high (letter : String) : String := "r" ++ toString n ++ letter
  match s with
  | .xmm => "x" ++ toString n
  | .qword => if n < 8 then "r" ++ stem else high ""
  | .dword => if n < 8 then "e" ++ stem else high "l"
  | .word => if n < 8 then stem else high "w"
  | .byte =>
    if 8 ≤ n then high "b"
    else if rex && 4 ≤ n then stem ++ "b"
    else (["al", "cl", "dl", "bl", "ah", "ch", "dh", "bh"][n]?).getD ""

/-- A signed value of a number of bytes in two's complement. -/
def signedValue (bytes : List UInt8) : Int :=
  Int.bmod (bytes.foldr (fun b acc => b.toNat + 256 * acc) 0) (2 ^ (8 * bytes.length))

/-- A displacement as it stands after a register. -/
def displacement (v : Int) : String :=
  if v = 0 then "" else (if 0 ≤ v then "+" else "") ++ Text.hex v

/-- The value of displacement bytes: a single byte is signed, and four bytes are not. -/
def displacementValue (bytes : List UInt8) : Int :=
  if bytes.length = 1 then signedValue bytes
  else (bytes.foldr (fun b acc => b.toNat + 256 * acc) 0 : Nat)

/-- The factor of an index register, which is a power of two; a factor of one is not written. -/
def scaleText (log : Nat) : String := if log = 0 then "" else toString (2 ^ log) ++ "*"

/-- What stands for the index register where an index byte selects none. -/
def noIndex : String := "reg(0)"

/-- The prefixes in front of an opcode. -/
structure Prefixes where
  short : Bool
  pre : Mandatory
  rex : Option UInt8
deriving Repr, DecidableEq

namespace Prefixes

/-- One bit of the register-extension prefix. -/
def rexBit (p : Prefixes) (n : UInt8) : Nat := (((p.rex.getD 0) >>> n) &&& 1).toNat

/-- The prefixes at the front of some code, and the code after them. -/
def read (code : List UInt8) : Prefixes × List UInt8 :=
  let (short, code) := match code with
    | 0x67 :: rest => (true, rest)
    | code => (false, code)
  let (pre, code) : Mandatory × List UInt8 := match code with
    | 0x66 :: rest => (.p66, rest)
    | 0xF3 :: rest => (.pF3, rest)
    | 0xF2 :: rest => (.pF2, rest)
    | code => (.none, code)
  match code with
  | b :: rest => if b >>> 4 = 4 then (⟨short, pre, some b⟩, rest) else (⟨short, pre, none⟩, code)
  | [] => (⟨short, pre, none⟩, [])

/-- The size of general operands. -/
def size (p : Prefixes) : Size :=
  if p.rexBit 3 = 1 then .qword else if p.pre = .p66 then .word else .dword

end Prefixes

/-- The register field and the text of the other operand, for each size that it may have, and the
code after them. -/
def readOperands? (p : Prefixes) (code : List UInt8) :
    Option (Nat × Nat × (Size → String) × List UInt8) := do
  match code with
  | [] => none
  | m :: rest =>
    let mode := (m >>> 6).toNat
    let digit := ((m >>> 3) &&& 7).toNat
    let reg := digit + 8 * p.rexBit 2
    let low := (m &&& 7).toNat
    let name (n : Nat) : String := registerName (if p.short then .dword else .qword) true n
    if mode = 3 then
      some (digit, reg, fun s => registerName s p.rex.isSome (low + 8 * p.rexBit 0), rest)
    else
      let (base, index, rest) : Nat × String × List UInt8 ←
        if low = 4 then
          match rest with
          | [] => none
          | s :: rest =>
            let index := ((s >>> 3) &&& 7).toNat + 8 * p.rexBit 1
            some ((s &&& 7).toNat + 8 * p.rexBit 0,
              "+" ++ scaleText (s >>> 6).toNat ++ (if index = 4 then noIndex else name index), rest)
        else some (low + 8 * p.rexBit 0, "", rest)
      if mode = 0 ∧ base % 8 = 5 then none
      else
        let far := if mode = 1 then 1 else if mode = 2 then 4 else 0
        if rest.length < far then none
        else
          let text := "[" ++ name base ++ index
            ++ displacement (displacementValue (rest.take far)) ++ "]"
          some (digit, reg, fun _ => text, rest.drop far)

/-- The letters of a condition code. -/
def conditionLetters (cc : UInt8) : String :=
  (["o", "no", "b", "ae", "e", "ne", "be", "a", "s", "ns", "p", "np", "l", "ge", "le",
    "g"][cc.toNat]?).getD ""

/-- Vector operations in map `0F` behind prefix `66`. -/
def packedNames : List (UInt8 × String) :=
  [(0xFC, "paddb"), (0xFD, "paddw"), (0xFE, "paddd"), (0xD4, "paddq"), (0xF8, "psubb"),
    (0xF9, "psubw"), (0xFA, "psubd"), (0xFB, "psubq"), (0xEC, "paddsb"), (0xED, "paddsw"),
    (0xDC, "paddusb"), (0xDD, "paddusw"), (0xE8, "psubsb"), (0xE9, "psubsw"), (0xD8, "psubusb"),
    (0xD9, "psubusw"), (0xD5, "pmullw"), (0xDA, "pminub"), (0xDE, "pmaxub"), (0xEA, "pminsw"),
    (0xEE, "pmaxsw"), (0x74, "pcmpeqb"), (0x75, "pcmpeqw"), (0x76, "pcmpeqd"), (0x64, "pcmpgtb"),
    (0x65, "pcmpgtw"), (0x66, "pcmpgtd"), (0xF1, "psllw"), (0xF2, "pslld"), (0xF3, "psllq"),
    (0xE1, "psraw"), (0xE2, "psrad"), (0xD1, "psrlw"), (0xD2, "psrld"), (0xD3, "psrlq"),
    (0xDB, "pand"), (0xEB, "por")]

/-- Vector operations in map `0F38` behind prefix `66`. -/
def packed38Names : List (UInt8 × String) :=
  [(0x38, "pminsb"), (0x3C, "pmaxsb"), (0x3A, "pminuw"), (0x3E, "pmaxuw"), (0x39, "pminsd"),
    (0x3D, "pmaxsd"), (0x3B, "pminud"), (0x3F, "pmaxud"), (0x40, "pmulld"), (0x29, "pcmpeqq"),
    (0x37, "pcmpgtq")]

/-- Float operations in map `0F`, without the letter of their precision. -/
def floatNames : List (UInt8 × String) :=
  [(0x54, "andp"), (0x55, "andnp"), (0x56, "orp"), (0x57, "xorp"), (0x58, "addp"), (0x59, "mulp"),
    (0x5C, "subp"), (0x5D, "minp"), (0x5E, "divp"), (0x5F, "maxp"), (0x28, "movap"),
    (0x10, "movup")]

/-- An instruction with an opcode of one byte: its name and operands. -/
def generalName? (size : Size) (opcode : UInt8) (digit : Nat) : Option (String × List Slot) :=
  let groupName : Option String :=
    ["add", "or", "adc", "sbb", "and", "sub", "xor", "cmp"][digit]?
  let shiftName : Option String :=
    match digit with
    | 4 => some "shl"
    | 5 => some "shr"
    | 7 => some "sar"
    | _ => none
  let alu : Option String :=
    match (opcode >>> 3).toNat with
    | 0 => some "add"
    | 1 => some "or"
    | 4 => some "and"
    | 5 => some "sub"
    | 6 => some "xor"
    | 7 => some "cmp"
    | _ => none
  match opcode with
  | 0x81 => groupName.map (·, [.rm size, .imm32])
  | 0x83 => groupName.map (·, [.rm size, .imm8])
  | 0x85 => some ("test", [.rm size, .reg size])
  | 0x88 => some ("mov", [.rm .byte, .reg .byte])
  | 0x89 => some ("mov", [.rm size, .reg size])
  | 0x8B => some ("mov", [.reg size, .rm size])
  | 0xC1 => shiftName.map (·, [.rm size, .imm8])
  | 0xC7 => if digit = 0 then some ("mov", [.rm size, .imm32]) else none
  | 0xD3 => shiftName.map (·, [.rm size, .fixed "cl"])
  | 0xF7 => if digit = 3 then some ("neg", [.rm size]) else none
  | opcode =>
    if opcode &&& 7 = 1 then alu.map (·, [.rm size, .reg size])
    else if opcode &&& 7 = 3 then alu.map (·, [.reg size, .rm size])
    else none

/-- An instruction in map `0F`: its name and operands. -/
def escapedName? (pre : Mandatory) (size : Size) (opcode : UInt8) (digit : Nat) :
    Option (String × List Slot) :=
  let letter : Option String := match pre with
    | .none => some "s"
    | .p66 => some "d"
    | _ => none
  match floatNames.lookup opcode, letter with
  | some name, some letter => some (name ++ letter, [.reg .xmm, .rm .xmm])
  | _, _ =>
    match opcode, pre with
    | 0x11, _ => letter.map fun l => ("movup" ++ l, [.rm .xmm, .reg .xmm])
    | 0xC2, _ => letter.map fun l => ("cmpp" ++ l, [.reg .xmm, .rm .xmm, .imm8])
    | 0x6E, .p66 => some ("movd", [.reg .xmm, .rm .dword])
    | 0xD7, .p66 => some ("pmovmskb", [.reg .dword, .rm .xmm])
    | 0xAF, .none => some ("imul", [.reg size, .rm size])
    | 0xB6, .none => some ("movzx", [.reg size, .rm .byte])
    | 0xB7, .none => some ("movzx", [.reg size, .rm .word])
    | 0xBE, .none => some ("movsx", [.reg size, .rm .byte])
    | 0xBF, .none => some ("movsx", [.reg size, .rm .word])
    | opcode, .none =>
      if opcode >>> 4 = 4 then
        some ("cmov" ++ conditionLetters (opcode &&& 15), [.reg size, .rm size])
      else if opcode >>> 4 = 9 then
        some ("set" ++ conditionLetters (opcode &&& 15), [.rm .byte])
      else none
    | opcode, .p66 =>
      if 0x71 ≤ opcode ∧ opcode ≤ 0x73 then
        let name : Option String := match digit with
          | 2 => some "psrl"
          | 4 => some "psra"
          | 6 => some "psll"
          | _ => none
        let lane := if opcode = 0x71 then "w" else if opcode = 0x72 then "d" else "q"
        if opcode = 0x73 ∧ digit = 4 then none
        else name.map fun n => (n ++ lane, [.rm .xmm, .imm8])
      else (packedNames.lookup opcode).map (·, [.reg .xmm, .rm .xmm])
    | _, _ => none

/-- Reads an immediate of some bytes. -/
def readImmediate? (n : Nat) (code : List UInt8) : Option (Int × List UInt8) :=
  if code.length < n then none else some (signedValue (code.take n), code.drop n)

/-- The texts of operands, and the code after their immediates. -/
def slotTexts? (rex : Bool) (reg : Nat) (rm : Size → String) :
    List Slot → List UInt8 → Option (List String × List UInt8)
  | [], code => some ([], code)
  | slot :: slots, code => do
    let (text, code) ← match slot with
      | .reg s => some (registerName s rex reg, code)
      | .rm s => some (rm s, code)
      | .fixed name => some (name, code)
      | .imm8 => (readImmediate? 1 code).map fun (v, code) => (Text.hex v, code)
      | .imm32 => (readImmediate? 4 code).map fun (v, code) => (Text.hex v, code)
    let (texts, code) ← slotTexts? rex reg rm slots code
    return (text :: texts, code)

/-- A jump over a distance. -/
def jumpText (name : String) (v : Int) : String :=
  name ++ " ." ++ (if 0 ≤ v then "+" else "") ++ toString v

/-- The name and operands of an instruction, and the code after it; `code` starts at the opcode. -/
def readNamed? (p : Prefixes) (code : List UInt8) : Option (String × List UInt8) := do
  let entry (find : Nat → Option (String × List Slot)) (code : List UInt8) :
      Option (String × List UInt8) := do
    let (digit, reg, rm, rest) ← readOperands? p code
    let (name, slots) ← find digit
    let (texts, rest) ← slotTexts? p.rex.isSome reg rm slots rest
    return (name ++ " " ++ ", ".intercalate texts, rest)
  match code with
  | 0x0F :: 0x38 :: opcode :: rest =>
    if p.pre ≠ .p66 then none
    else if opcode = 0x10 then
      entry (fun _ => some ("pblendvb", [.reg .xmm, .rm .xmm, .fixed "x0"])) rest
    else entry (fun _ => (packed38Names.lookup opcode).map (·, [.reg .xmm, .rm .xmm])) rest
  | 0x0F :: opcode :: rest =>
    if opcode >>> 4 = 8 then do
      let (v, rest) ← readImmediate? 4 rest
      return (jumpText ("j" ++ conditionLetters (opcode &&& 15)) v, rest)
    else entry (escapedName? p.pre p.size opcode) rest
  | 0xE9 :: rest => do
    let (v, rest) ← readImmediate? 4 rest
    return (jumpText "jmp" v, rest)
  | 0x3D :: rest => do
    let (v, rest) ← readImmediate? 4 rest
    return ("cmp " ++ registerName p.size false 0 ++ ", " ++ Text.hex v, rest)
  | opcode :: rest =>
    let n := (opcode &&& 7).toNat + 8 * p.rexBit 0
    if opcode >>> 3 = 0x0A then some ("push " ++ registerName .qword false n, rest)
    else if opcode >>> 3 = 0x0B then some ("pop " ++ registerName .qword false n, rest)
    else if opcode >>> 3 = 0x17 then do
      let (v, rest) ← readImmediate? 4 rest
      return ("mov " ++ registerName .dword false n ++ ", " ++ Text.hex v, rest)
    else entry (generalName? p.size opcode) rest
  | [] => none

/-- Reads an instruction without VEX, if it is one that the encoder uses. -/
def decodeLegacy? : Decoder := fun code => do
  let (p, body) := Prefixes.read code
  let (text, rest) ← readNamed? p body
  return ⟨code.length - rest.length, text⟩

/-- The instruction at the front of some code: one in VEX, or what a decoder finds there, in lower
case. -/
def instruction? (d : Decoder) (code : List UInt8) : Option Found :=
  match decodeVex? code with
  | some f => some f
  | none => (d code).map fun f => ⟨f.size, .ofList (Text.lower f.text.toList)⟩

/-- What stands at the front of some code: an instruction, or a byte of data. -/
def decodeFront (d : Decoder) (first : UInt8) (rest : List UInt8) : Found :=
  (instruction? d (first :: rest)).getD ⟨1, "db 0x" ++ Text.hexPadded 2 first.toNat⟩

/-- One line of a disassembly. -/
structure CodeLine where
  offset : Nat
  bytes : List UInt8
  text : String
deriving Repr, DecidableEq

/-- Walks code instruction by instruction, from an offset on. -/
def decodeFrom (d : Decoder) (offset : Nat) (code : List UInt8) : List CodeLine :=
  match code with
  | [] => []
  | first :: rest =>
    let f := decodeFront d first rest
    ⟨offset, first :: rest.take (f.size - 1), f.text⟩
      :: decodeFrom d (offset + f.size) (rest.drop (f.size - 1))
termination_by code.length
decreasing_by
  simp only [List.length_drop, List.length_cons]
  omega

/-- The lines of a disassembly. -/
def decode (d : Decoder) (code : Bytes) : List CodeLine := decodeFrom d 0 code.toList

/-- The disassembly of some code: offset, bytes and text of each instruction. -/
def disassemble (d : Decoder) (code : Bytes) : String :=
  String.join ((decode d code).map fun l =>
    "0x" ++ Text.hexPadded 4 l.offset ++ ": "
      ++ Text.padRight 24 (" ".intercalate (l.bytes.map fun b => Text.hexPadded 2 b.toNat)) ++ " "
      ++ l.text ++ "\n")

end LaneAsm.X86
