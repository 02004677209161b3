import LaneAsm.Catalog.BuiltIn
import LaneAsm.Proofs.Bytes
import LaneAsm.Proofs.X86.Selected

/-!
Instructions read back from their bytes. `decode?` reads an instruction by the rules of the 64-bit
mode: prefixes, REX or VEX, the opcode and its map, and the addressing bytes. It gives back the form
and the operands of what was written (`decode?_legacy`, `decode?_vex`), for every form that is not
taken for a prefix; the forms that the encoder uses are among them.
-/
namespace LaneAsm.X86

/-! ## Decoding -/

/-- What an address counts from: a register, nothing, or the next instruction. -/
inductive Base where
  | reg (n : Nat)
  | nothing
  | next
deriving Repr, DecidableEq

/-- An address, with the number of the index register and the factor it is taken by. -/
structure Address where
  base : Base
  index : Option (Nat × Nat)
  disp : Int
deriving Repr, DecidableEq

/-- The register-or-memory side of an instruction that was read. -/
inductive Location where
  | reg (n : Nat)
  | mem (a : Address)
deriving Repr, DecidableEq

/-- An instruction that was read. -/
structure Decoded where
  /-- Whether the address-size prefix stands in front. -/
  short : Bool
  /-- The vector length and the further register, of an instruction in VEX. -/
  vex : Option (Bool × Nat)
  form : Form
  reg : Nat
  location : Location
  /-- The bytes after the addressing bytes, which start with the immediate. -/
  rest : List UInt8
deriving Repr, DecidableEq

/-- Bit `n` of a byte. -/
def bitOf (b : UInt8) (n : Nat) : Bool := b.toNat / 2 ^ n % 2 == 1

/-- A register number from its low bits and its extension bit. -/
def extended (high : Bool) (low : Nat) : Nat := low + if high then 8 else 0

def byte? : List UInt8 → Option (UInt8 × List UInt8)
  | [] => none
  | b :: bs => some (b, bs)

/-- A signed displacement of `n` bytes. -/
def displacement? (n : Nat) (bytes : List UInt8) : Option (Int × List UInt8) :=
  if n ≤ bytes.length then
    some (Int.bmod (wordOf (bytes.take n)).toNat (256 ^ n), bytes.drop n)
  else none

/-- The bytes of the displacement of an addressing mode. -/
def displacementBytes (mode : Nat) : Nat := if mode = 1 then 1 else if mode = 2 then 4 else 0

/-- The location of an addressing mode, with a second addressing byte where the low bits are those of
the stack pointer. In mode zero the low bits of the frame pointer stand for no register. -/
def location? (x b : Bool) (mode rm : Nat) (bytes : List UInt8) :
    Option (Location × List UInt8) := do
  if mode = 3 then return (.reg (extended b rm), bytes)
  else if rm = 4 then
    let (s, bytes) ← byte? bytes
    let index := extended x (s.toNat / 8 % 8)
    let index := if index = 4 then none else some (index, 2 ^ (s.toNat / 64))
    if s.toNat % 8 = 5 ∧ mode = 0 then
      let (disp, rest) ← displacement? 4 bytes
      return (.mem ⟨.nothing, index, disp⟩, rest)
    else
      let (disp, rest) ← displacement? (displacementBytes mode) bytes
      return (.mem ⟨.reg (extended b (s.toNat % 8)), index, disp⟩, rest)
  else if rm = 5 ∧ mode = 0 then
    let (disp, rest) ← displacement? 4 bytes
    return (.mem ⟨.next, none, disp⟩, rest)
  else
    let (disp, rest) ← displacement? (displacementBytes mode) bytes
    return (.mem ⟨.reg (extended b rm), none, disp⟩, rest)

/-- The register and the location of the addressing bytes. -/
def operands? (r x b : Bool) (bytes : List UInt8) : Option (Nat × Location × List UInt8) := do
  let (m, bytes) ← byte? bytes
  let (location, rest) ← location? x b (m.toNat / 64) (m.toNat % 8) bytes
  return (extended r (m.toNat / 8 % 8), location, rest)

/-- The opcode and its map, behind the escape bytes. -/
def opcode? (bytes : List UInt8) : Option (OpcodeMap × UInt8 × List UInt8) := do
  let (o, bytes) ← byte? bytes
  if o = 0x0F then
    let (o, bytes) ← byte? bytes
    if o = 0x38 then
      let (o, bytes) ← byte? bytes
      return (.m0F38, o, bytes)
    else if o = 0x3A then
      let (o, bytes) ← byte? bytes
      return (.m0F3A, o, bytes)
    else return (.m0F, o, bytes)
  else return (.one, o, bytes)

/-- The address-size prefix and the mandatory prefix in front of an instruction. -/
def prefixes (short : Bool) (pre : Mandatory) : List UInt8 → Bool × Mandatory × List UInt8
  | [] => (short, pre, [])
  | b :: bs =>
    if b = 0x67 then prefixes true pre bs
    else if b = 0x66 then prefixes short (if pre = .none then .p66 else pre) bs
    else if b = 0xF3 then prefixes short .pF3 bs
    else if b = 0xF2 then prefixes short .pF2 bs
    else (short, pre, b :: bs)

/-- The mandatory prefix of a number in VEX. -/
def mandatory (n : Nat) : Mandatory :=
  if n = 0 then .none else if n = 1 then .p66 else if n = 2 then .pF3 else .pF2

/-- The map of a number in VEX. -/
def vexMap? (n : Nat) : Option OpcodeMap :=
  if n = 1 then some .m0F else if n = 2 then some .m0F38 else if n = 3 then some .m0F3A else none

/-- The rest of an instruction in VEX, from its last prefix byte on. -/
def vexBody? (short : Bool) (r x b wide : Bool) (map : OpcodeMap) (last : UInt8) (bytes : List UInt8) :
    Option Decoded := do
  let (o, bytes) ← byte? bytes
  let (reg, location, rest) ← operands? r x b bytes
  return ⟨short, some (bitOf last 2, 15 - last.toNat / 8 % 16),
    ⟨mandatory (last.toNat % 4), map, o, wide⟩, reg, location, rest⟩

/-- The rest of an instruction outside VEX, from its escape bytes on. -/
def legacyBody? (short : Bool) (pre : Mandatory) (wide r x b : Bool) (bytes : List UInt8) :
    Option Decoded := do
  let (map, o, bytes) ← opcode? bytes
  let (reg, location, rest) ← operands? r x b bytes
  return ⟨short, none, ⟨pre, map, o, wide⟩, reg, location, rest⟩

/-- The rest of an instruction, from its prefixes on. The register bits in VEX are inverted; its short
form has the operand-size bit and two of the register bits clear. -/
def body? (short : Bool) (pre : Mandatory) (bytes : List UInt8) : Option Decoded := do
  let (lead, body) ← byte? bytes
  if lead = 0xC5 then
    if pre ≠ .none then none
    else
      let (last, body) ← byte? body
      vexBody? short (!bitOf last 7) false false false .m0F last body
  else if lead = 0xC4 then
    if pre ≠ .none then none
    else
      let (first, body) ← byte? body
      let (last, body) ← byte? body
      let map ← vexMap? (first.toNat % 32)
      vexBody? short (!bitOf first 7) (!bitOf first 6) (!bitOf first 5) (bitOf last 7) map last body
  else if lead.toNat / 16 = 4 then
    legacyBody? short pre (bitOf lead 3) (bitOf lead 2) (bitOf lead 1) (bitOf lead 0) body
  else legacyBody? short pre false false false false bytes

/-- Reads an instruction. -/
def decode? (bytes : List UInt8) : Option Decoded :=
  let (short, pre, bytes) := prefixes false .none bytes
  body? short pre bytes

/-! ## Addressing bytes -/

namespace Rm

/-- A register, or a memory operand that an instruction can address. -/
def Addressable : Rm → Prop
  | .reg _ => True
  | .mem m => (0 ≤ m.base.index ∧ m.base.index ≤ 15) ∧
    (∀ i ∈ m.index, 0 ≤ i.index ∧ i.index ≤ 15 ∧ i.index ≠ 4) ∧
    0 ≤ m.disp.value ∧ m.disp.value ≤ 0x7FFFFFFF

/-- What should be read back. -/
def location : Rm → Location
  | .reg r => .reg r.val
  | .mem m => .mem ⟨.reg m.base.index.toNat, m.index.map fun i => (i.index.toNat, 1), m.disp.value⟩

end Rm

theorem toNat_modrm (mode : Fin 4) (r : RegNum) (rm : Fin 8) :
    (modrm (UInt8.ofNat mode.val) (low3 r) (UInt8.ofNat rm.val)).toNat
      = 64 * mode.val + 8 * (r.val % 8) + rm.val := by
  decide +revert

theorem toNat_sib (index base : Fin 8) :
    (sib (UInt8.ofNat index.val) (UInt8.ofNat base.val)).toNat = 8 * index.val + base.val := by
  decide +revert

@[simp] theorem extended_high (r : RegNum) : extended (high r) (r.val % 8) = r.val := by
  decide +revert

theorem low3_eq_four_iff (r : RegNum) : low3 r = 4 ↔ r.val % 8 = 4 := by
  decide +revert

theorem low3_eq_five_iff (r : RegNum) : low3 r = 5 ↔ r.val % 8 = 5 := by
  decide +revert

theorem low3_eq {r : Reg} {n : RegNum} (number : r.index = n.val) : r.low3 = low3 n := by
  rw [Reg.low3, number]
  clear number
  decide +revert

theorem ext_eq {r : Reg} {n : RegNum} (number : r.index = n.val) : (r.ext == 1) = high n := by
  rw [Reg.ext, number]
  clear number
  decide +revert

@[simp] theorem byte?_cons (b : UInt8) (bs : List UInt8) : byte? (b :: bs) = some (b, bs) := rfl

/-- A displacement is read back where it fits its bytes. -/
theorem displacement?_littleEndian {n : Nat} {d : Int} (short : n ≤ 8)
    (least : -(256 ^ n : Nat) ≤ 2 * d) (most : 2 * d < (256 ^ n : Nat)) (rest : List UInt8) :
    displacement? n (littleEndian n (UInt64.ofInt d) ++ rest) = some (d, rest) := by
  have length := length_littleEndian n (UInt64.ofInt d)
  have divides : ((256 ^ n : Nat) : Int) ∣ 2 ^ 64 := by
    have := Int.natCast_dvd_natCast.2 (Nat.pow_dvd_pow 256 short)
    simpa using this
  have value : ((wordOf (littleEndian n (UInt64.ofInt d))).toNat : Int) = d % (256 ^ n : Nat) := by
    rw [toNat_wordOf_littleEndian n _ short, Int.natCast_emod, toNat_ofInt,
      Int.emod_emod_of_dvd _ divides]
  rw [displacement?, if_pos (by simp [length]), List.take_left' length, List.drop_left' length, value,
    Int.emod_bmod, Int.bmod_eq_of_le_mul_two (by omega) (by omega)]

theorem operands?_modrm (mode : Fin 4) (r : RegNum) (rm : Fin 8) (x b : Bool) (bytes : List UInt8) :
    operands? (high r) x b (modrm (UInt8.ofNat mode.val) (low3 r) (UInt8.ofNat rm.val) :: bytes)
      = (location? x b mode.val rm.val bytes).map fun (location, rest) => (r.val, location, rest) := by
  have value := toNat_modrm mode r rm
  have fields : (64 * mode.val + 8 * (r.val % 8) + rm.val) / 64 = mode.val
      ∧ (64 * mode.val + 8 * (r.val % 8) + rm.val) / 8 % 8 = r.val % 8
      ∧ (64 * mode.val + 8 * (r.val % 8) + rm.val) % 8 = rm.val := by omega
  simp only [operands?, byte?_cons, Option.bind_eq_bind, Option.bind_some, value, fields, extended_high]
  cases location? x b mode.val rm.val bytes <;> rfl

theorem location?_reg (x : Bool) (r : RegNum) (rest : List UInt8) :
    location? x (high r) 3 (r.val % 8) rest = some (.reg r.val, rest) := by
  rw [location?, if_pos rfl, extended_high]
  rfl

/-- A displacement as an addressing mode has it: `tail` is read back as `d`, and in mode zero the base
is none that stands for no register. -/
structure Displaced (base : Nat) (d : Int) (mode : Fin 4) (tail : List UInt8) : Prop where
  memory : mode.val ≠ 3
  based : ¬ (base = 5 ∧ mode.val = 0)
  read : ∀ rest, displacement? (displacementBytes mode.val) (tail ++ rest) = some (d, rest)

theorem displaced_zero {base : Nat} (based : base ≠ 5) : Displaced base 0 0 [] :=
  ⟨by decide, fun h => based h.1, fun _ => by simp [displacementBytes, displacement?, wordOf]⟩

theorem displaced_byte {base : Nat} {d : Int} (least : -128 ≤ d) (most : d ≤ 127) :
    Displaced base d 1 (littleEndian 1 (UInt64.ofInt d)) :=
  ⟨by decide, by simp, @displacement?_littleEndian 1 d (by decide) (by omega) (by omega)⟩

theorem displaced_word {base : Nat} {d : Int} (least : -2 ^ 31 ≤ d) (most : d < 2 ^ 31) :
    Displaced base d 2 (littleEndian 4 (UInt64.ofInt d)) :=
  ⟨by decide, by simp, @displacement?_littleEndian 4 d (by decide) (by omega) (by omega)⟩

section
variable {base : RegNum} {d : Int} {mode : Fin 4} {tail : List UInt8}

theorem Displaced.location?_base (displaced : Displaced (base.val % 8) d mode tail)
    (plain : base.val % 8 ≠ 4) (x : Bool) (rest : List UInt8) :
    location? x (high base) mode.val (base.val % 8) (tail ++ rest)
      = some (.mem ⟨.reg base.val, none, d⟩, rest) := by
  simp only [location?, displaced.memory, plain, displaced.based, if_false, displaced.read]
  simp

theorem Displaced.location?_sib (displaced : Displaced (base.val % 8) d mode tail) (index : Fin 8)
    (x : Bool) (rest : List UInt8) :
    location? x (high base) mode.val 4
        (sib (UInt8.ofNat index.val) (UInt8.ofNat (base.val % 8)) :: tail ++ rest)
      = some (.mem ⟨.reg base.val,
          if extended x index.val = 4 then none else some (extended x index.val, 1), d⟩, rest) := by
  have value := toNat_sib index ⟨base.val % 8, by omega⟩
  have fields : (8 * index.val + base.val % 8) / 64 = 0
      ∧ (8 * index.val + base.val % 8) / 8 % 8 = index.val
      ∧ (8 * index.val + base.val % 8) % 8 = base.val % 8 := by omega
  dsimp only at value
  simp only [location?, displaced.memory, List.cons_append, byte?_cons, value, fields, if_false,
    Option.bind_eq_bind, Option.bind_some, displaced.based, displaced.read]
  simp

end

/-- Every displacement that can be addressed has a mode. -/
theorem displaced_of_disp (base : RegNum) {d : Int} (least : 0 ≤ d) (most : d ≤ 0x7FFFFFFF) :
    ∃ mode : Fin 4, ∃ tail, Displaced (base.val % 8) d mode tail ∧
      (if d = 0 ∧ low3 base ≠ 5 then ((0 : UInt8), ([] : List UInt8))
        else if fitsByte d then (1, littleEndian 1 (UInt64.ofInt d))
        else (2, littleEndian 4 (UInt64.ofInt d))) = (UInt8.ofNat mode.val, tail) := by
  by_cases none : d = 0 ∧ low3 base ≠ 5
  · obtain ⟨rfl, based⟩ := none
    exact ⟨0, [], displaced_zero (mt (low3_eq_five_iff base).2 based), by simp [based]⟩
  · rw [if_neg none]
    by_cases byte : fitsByte d
    · rw [if_pos byte]
      simp only [fitsByte, Bool.and_eq_true, decide_eq_true_eq] at byte
      exact ⟨1, _, displaced_byte byte.1 byte.2, rfl⟩
    · rw [if_neg byte]
      exact ⟨2, _, displaced_word (by omega) (by omega), rfl⟩

theorem exists_number {r : Reg} (least : 0 ≤ r.index) (most : r.index ≤ 15) :
    ∃ n : RegNum, r.index = n.val :=
  ⟨⟨r.index.toNat, by omega⟩, by simp only; omega⟩

/-- The addressing bytes are read back as the register and the location they were written from. -/
theorem operands?_operandBytes (r : RegNum) {x : Rm} (addressable : x.Addressable)
    (rest : List UInt8) :
    operands? (high r) x.extensions.1 x.extensions.2 (operandBytes (low3 r) x ++ rest)
      = some (r.val, x.location, rest) := by
  cases x with
  | reg y =>
    have read := operands?_modrm 3 r ⟨y.val % 8, by omega⟩ false (high y) rest
    exact read.trans (congrArg _ (location?_reg false y rest))
  | mem m =>
    obtain ⟨⟨baseLeast, baseMost⟩, indexed, least, most⟩ := addressable
    obtain ⟨base, baseNumber⟩ := exists_number baseLeast baseMost
    obtain ⟨mode, tail, displaced, chosen⟩ := displaced_of_disp base least most
    simp only [operandBytes, low3_eq baseNumber, chosen, Rm.extensions, ext_eq baseNumber, Rm.location,
      baseNumber, Int.toNat_natCast]
    cases index : m.index with
    | none =>
      by_cases second : low3 base = 4
      · have read := operands?_modrm mode r 4 false (high base) (sib 4 (low3 base) :: tail ++ rest)
        rw [if_pos second]
        exact read.trans (congrArg _ (displaced.location?_sib 4 false rest))
      · have read := operands?_modrm mode r ⟨base.val % 8, by omega⟩ false (high base) (tail ++ rest)
        have plain := mt (low3_eq_four_iff base).2 second
        rw [if_neg second]
        exact read.trans (congrArg _ (displaced.location?_base plain false rest))
    | some i =>
      obtain ⟨indexLeast, indexMost, other⟩ := indexed i index
      obtain ⟨n, number⟩ := exists_number indexLeast indexMost
      have read := operands?_modrm mode r 4 (high n) (high base)
        (sib (low3 n) (low3 base) :: tail ++ rest)
      have located := displaced.location?_sib ⟨n.val % 8, by omega⟩ (high n) rest
      rw [extended_high, if_neg (by omega)] at located
      simp only [Option.map_some, Option.getD_some, low3_eq number, ext_eq number, number,
        Int.toNat_natCast]
      exact read.trans (congrArg _ located)

/-! ## Opcodes and prefixes -/

theorem opcode?_of_legacy {f : Form} (legacy : f.Legacy) (bytes : List UInt8) :
    opcode? (f.map.bytes ++ f.opcode :: bytes) = some (f.map, f.opcode, bytes) := by
  obtain ⟨pre, map, opcode, wide⟩ := f
  cases map with
  | one =>
    have other : opcode ≠ 0x0F := by
      rintro rfl
      exact absurd (show leads 0x0F = false from legacy) (by decide)
    simp [opcode?, OpcodeMap.bytes, other]
  | m0F =>
    obtain ⟨first, second⟩ : opcode ≠ 0x38 ∧ opcode ≠ 0x3A := legacy
    simp [opcode?, OpcodeMap.bytes, first, second]
  | m0F38 => rfl
  | m0F3A => rfl

/-- A byte that ends the prefixes. -/
def Body (b : UInt8) : Prop := b ≠ 0x67 ∧ b ≠ 0x66 ∧ b ≠ 0xF3 ∧ b ≠ 0xF2

/-- A byte with which an instruction outside VEX starts where it has no extension bits. -/
def Start (b : UInt8) : Prop := Body b ∧ b ≠ 0xC5 ∧ b ≠ 0xC4 ∧ b.toNat / 16 ≠ 4

instance (b : UInt8) : Decidable (Body b) := inferInstanceAs (Decidable (_ ∧ _))

instance (b : UInt8) : Decidable (Start b) := inferInstanceAs (Decidable (_ ∧ _))

theorem start_of_leads {b : UInt8} (plain : leads b = false) : Start b := by
  have all : ∀ n : Fin 256, leads (UInt8.ofNat n.val) = false → Start (UInt8.ofNat n.val) := by
    decide +kernel
  have start := all ⟨b.toNat, b.toNat_lt⟩
  rw [show UInt8.ofNat b.toNat = b from UInt8.ofNat_toNat] at start
  exact start plain

/-- An opcode with its escape bytes is not taken for prefixes. -/
theorem start_of_legacy {f : Form} (legacy : f.Legacy) (bytes : List UInt8) :
    ∃ b bs, f.map.bytes ++ f.opcode :: bytes = b :: bs ∧ Start b := by
  obtain ⟨pre, map, opcode, wide⟩ := f
  cases map with
  | one => exact ⟨opcode, bytes, rfl, start_of_leads legacy⟩
  | m0F | m0F38 | m0F3A => exact ⟨0x0F, _, rfl, by decide⟩

theorem decode?_eq_body? {b : UInt8} (ends : Body b) (short : Bool) (pre : Mandatory)
    (bs : List UInt8) :
    decode? ((if short then [0x67] else []) ++ (pre.bytes ++ b :: bs)) = body? short pre (b :: bs) := by
  obtain ⟨h67, h66, hF3, hF2⟩ := ends
  cases short <;> cases pre <;> simp [decode?, prefixes, Mandatory.bytes, h67, h66, hF3, hF2]

theorem body?_start {b : UInt8} (start : Start b) (short : Bool) (pre : Mandatory) (bs : List UInt8) :
    body? short pre (b :: bs) = legacyBody? short pre false false false false (b :: bs) := by
  obtain ⟨-, hC5, hC4, plain⟩ := start
  simp [body?, hC5, hC4, plain]

theorem body_rex (w r x b : Bool) : Body (rex w r x b) := by
  decide +revert

theorem rex_fields (w r x b : Bool) :
    rex w r x b ≠ 0xC5 ∧ rex w r x b ≠ 0xC4 ∧ (rex w r x b).toNat / 16 = 4 ∧
      bitOf (rex w r x b) 3 = w ∧ bitOf (rex w r x b) 2 = r ∧ bitOf (rex w r x b) 1 = x ∧
      bitOf (rex w r x b) 0 = b := by
  decide +revert

theorem body?_rex (short : Bool) (pre : Mandatory) (w r x b : Bool) (bs : List UInt8) :
    body? short pre (rex w r x b :: bs) = legacyBody? short pre w r x b bs := by
  obtain ⟨hC5, hC4, extension, hw, hr, hx, hb⟩ := rex_fields w r x b
  simp [body?, hC5, hC4, extension, hw, hr, hx, hb]

/-! ## Instructions -/

section
variable {f : Form} {x : Rm} (r : RegNum) (short : Bool) (imm rest : List UInt8)

/-- An instruction outside VEX is read back. Where every extension bit is clear the prefix that holds
them is left out, and the opcode then ends the prefixes. -/
theorem decode?_legacy (legacy : f.Legacy) (addressable : x.Addressable) :
    decode? ((Insn.legacy f r x imm).bytes short ++ rest)
      = some ⟨short && x.isMem, none, f, r.val, x.location, imm ++ rest⟩ := by
  have operands := operands?_operandBytes r addressable (imm ++ rest)
  have body : legacyBody? (short && x.isMem) f.pre f.wide (high r) x.extensions.1 x.extensions.2
          (f.map.bytes ++ f.opcode :: (operandBytes (low3 r) x ++ (imm ++ rest)))
        = some ⟨short && x.isMem, none, f, r.val, x.location, imm ++ rest⟩ := by
    simp [legacyBody?, opcode?_of_legacy legacy, operands]
  simp only [Insn.bytes, List.append_assoc, List.cons_append, List.nil_append]
  by_cases extension : (f.wide || high r || x.extensions.1 || x.extensions.2) = true
  · rw [if_pos extension, List.cons_append, List.nil_append, decode?_eq_body? (body_rex ..), body?_rex]
    exact body
  · rw [if_neg extension, List.nil_append]
    obtain ⟨b, bs, bytes, start⟩ :=
      start_of_legacy legacy (operandBytes (low3 r) x ++ (imm ++ rest))
    have clear : f.wide = false ∧ high r = false ∧ x.extensions.1 = false ∧ x.extensions.2 = false := by
      simpa [and_assoc] using extension
    obtain ⟨wide, hr, hx, hb⟩ := clear
    rw [wide, hr, hx, hb, bytes] at body
    rw [bytes, decode?_eq_body? start.1, body?_start start]
    exact body

/-- The last byte of a VEX prefix, with its highest bit. -/
def vexLast (top : Bool) (pre : Mandatory) (long : Bool) (v : RegNum) : UInt8 :=
  bit top 7 ||| (((15 - UInt8.ofNat v.val) <<< 3) ||| bit long 2 ||| pre.code)

/-- The byte of a long VEX prefix that has the inverted extension bits and the map. -/
def vexFirst (r x b : Bool) (map : OpcodeMap) : UInt8 :=
  bit (!r) 7 ||| bit (!x) 6 ||| bit (!b) 5 ||| map.code

theorem vexBytes_eq (f : Form) (long r x b : Bool) (v : RegNum) :
    vexBytes f long r x b v = if !x && !b && !f.wide && f.map == .m0F
      then [0xC5, vexLast (!r) f.pre long v]
      else [0xC4, vexFirst r x b f.map, vexLast f.wide f.pre long v] := rfl

theorem bitOf_vexLast (top : Bool) (pre : Mandatory) (long : Bool) (v : RegNum) :
    bitOf (vexLast top pre long v) 7 = top := by
  cases pre <;> decide +revert

theorem vexLast_fields (top : Bool) (pre : Mandatory) (long : Bool) (v : RegNum) :
    bitOf (vexLast top pre long v) 2 = long ∧ 15 - (vexLast top pre long v).toNat / 8 % 16 = v.val ∧
      mandatory ((vexLast top pre long v).toNat % 4) = pre := by
  cases pre <;> decide +revert

theorem vexFirst_fields (r x b : Bool) {map : OpcodeMap} (escaped : map ≠ .one) :
    bitOf (vexFirst r x b map) 7 = !r ∧ bitOf (vexFirst r x b map) 6 = !x ∧
      bitOf (vexFirst r x b map) 5 = !b ∧ vexMap? ((vexFirst r x b map).toNat % 32) = some map := by
  cases map with
  | one => exact absurd rfl escaped
  | m0F | m0F38 | m0F3A =>
    clear escaped
    decide +revert

/-- An instruction in VEX is read back, from the short form of the prefix and from the long one. -/
theorem decode?_vex (vector : f.Vector) (addressable : x.Addressable) (long : Bool) (v : RegNum) :
    decode? ((Insn.vex f long r v x imm).bytes short ++ rest)
      = some ⟨short && x.isMem, some (long, v.val), f, r.val, x.location, imm ++ rest⟩ := by
  have operands := operands?_operandBytes r addressable (imm ++ rest)
  have body (top : Bool) :
      vexBody? (short && x.isMem) (high r) x.extensions.1 x.extensions.2 f.wide f.map
          (vexLast top f.pre long v) (f.opcode :: (operandBytes (low3 r) x ++ (imm ++ rest)))
        = some ⟨short && x.isMem, some (long, v.val), f, r.val, x.location, imm ++ rest⟩ := by
    obtain ⟨hlong, hv, hpre⟩ := vexLast_fields top f.pre long v
    simp [vexBody?, operands, hlong, hv, hpre]
  simp only [Insn.bytes, vexBytes_eq, List.append_assoc, List.cons_append, List.nil_append]
  by_cases compact : (!x.extensions.1 && !x.extensions.2 && !f.wide && f.map == .m0F) = true
  · have clear : x.extensions.1 = false ∧ x.extensions.2 = false ∧ f.wide = false ∧ f.map = .m0F := by
      simpa [and_assoc] using compact
    obtain ⟨hx, hb, wide, map⟩ := clear
    have read := body (!high r)
    rw [hx, hb, wide, map] at read
    rw [if_pos compact]
    refine (@decode?_eq_body? 0xC5 (by decide) _ .none _).trans ?_
    simpa [body?, bitOf_vexLast] using read
  · obtain ⟨hr, hx, hb, map⟩ := vexFirst_fields (high r) x.extensions.1 x.extensions.2 vector.2
    rw [if_neg compact]
    refine (@decode?_eq_body? 0xC4 (by decide) _ .none _).trans ?_
    simpa [body?, bitOf_vexLast, hr, hx, hb, map] using body f.wide

end

/-- The form of an instruction with addressing bytes, and whether it is in VEX. -/
def Insn.form? : Insn → Option (Bool × Form)
  | .legacy f _ _ _ => some (false, f)
  | .vex f _ _ _ _ _ => some (true, f)
  | _ => none

/-- An instruction with a form is selected for a primitive. -/
def Used (cfg : Config) (p : Primitive) (inVex : Bool) (f : Form) : Prop :=
  ∃ i ∈ (select cfg p).items, i.form? = some (inVex, f)

instance (cfg : Config) (p : Primitive) (inVex : Bool) (f : Form) : Decidable (Used cfg p inVex f) :=
  inferInstanceAs (Decidable (∃ _ ∈ _, _))

section
variable {cfg : Config} {p : Primitive} {f : Form}

theorem Used.legacy (used : Used cfg p false f) : f.Legacy := by
  obtain ⟨i, member, form⟩ := used
  have of := (select_safe cfg p).items i member
  cases i with
  | legacy g r x imm =>
    cases form
    rcases of with plain | ⟨l, -, jump⟩
    · exact plain
    · cases jump
  | _ => cases form

theorem Used.vector (used : Used cfg p true f) (regular : p.Regular) : f.Vector := by
  obtain ⟨i, member, form⟩ := used
  have of := (select_safe cfg p).items i member
  cases i with
  | vex g long r v x imm =>
    cases form
    rcases of with plain | ⟨l, -, jump⟩
    · exact plain regular
    · cases jump
  | _ => cases form

end

/-- Whatever form the encoder uses, its bytes are read back as the form and the operands they were
written from, in front of any other bytes. -/
theorem encodings_decode (cfg : Config) {p : Primitive} (regular : p.Regular) (r : RegNum) {x : Rm}
    (addressable : x.Addressable) (short : Bool) (imm rest : List UInt8) :
    (∀ f, Used cfg p false f →
      decode? ((Insn.legacy f r x imm).bytes short ++ rest)
        = some ⟨short && x.isMem, none, f, r.val, x.location, imm ++ rest⟩) ∧
    ∀ f, Used cfg p true f → ∀ (long : Bool) (v : RegNum),
      decode? ((Insn.vex f long r v x imm).bytes short ++ rest)
        = some ⟨short && x.isMem, some (long, v.val), f, r.val, x.location, imm ++ rest⟩ := by
  constructor
  · intro f used
    exact decode?_legacy r short imm rest used.legacy addressable
  · intro f used long v
    exact decode?_vex r short imm rest (used.vector regular) addressable long v

/-- A product lane by lane, which uses both kinds of instructions, at an address with the high
register that has the low bits of the stack pointer. -/
theorem encodings_decode_product :
    let cfg := Config.x86 Level.avx1 "avx1" "256" 32 1
    let p := Primitive.arith .mul .u64 (.xmm 1) (.xmm 2) (.reg (.xmm 3))
    let x := Rm.mem ⟨.base 13, some (.base 12), ⟨128, .dp⟩⟩
    let address := Location.mem ⟨.reg 13, some (12, 1), 128⟩
    (Used cfg p false ⟨.none, .m0F, 0xAF, true⟩ ∧
      decode? ((Insn.legacy ⟨.none, .m0F, 0xAF, true⟩ 9 x []).bytes true)
        = some ⟨true, none, ⟨.none, .m0F, 0xAF, true⟩, 9, address, []⟩) ∧
    Used cfg p true .movupsLoad ∧
      decode? ((Insn.vex .movupsLoad true 9 7 x []).bytes true)
        = some ⟨true, some (true, 7), .movupsLoad, 9, address, []⟩ := by
  intro cfg p x address
  have addressable : x.Addressable := by
    refine ⟨by decide, ?_, by decide, by decide⟩
    rintro i ⟨⟩
    decide
  obtain ⟨legacy, vex⟩ := @encodings_decode cfg p trivial 9 x addressable true [] []
  have product : Used cfg p false ⟨.none, .m0F, 0xAF, true⟩ := by decide +kernel
  have loads : Used cfg p true .movupsLoad := by decide +kernel
  have first := legacy _ product
  have second := vex _ loads true 7
  rw [List.append_nil] at first second
  exact ⟨⟨product, first⟩, loads, second⟩

end LaneAsm.X86
