import LaneAsm.Proofs.X86.Chosen
import LaneAsm.Proofs.X86.Decoding
import LaneAsm.X86.Decode

/-!
The disassembler on single instructions. In front of any bytes it finds an instruction of the encoder
with the length that was written, in VEX by the fields of its prefix (`decodeVex?_vex`) and otherwise
by name (`finds_legacy`); it does not take one kind for the other (`decodeVex?_other`).
-/
namespace LaneAsm.X86

/-! ## Addressing bytes -/

/-- The bytes of a displacement go with the mode of the byte in front. -/
def Moded (m : UInt8) (tail : List UInt8) : Prop :=
  m >>> 6 = 0 ∧ tail.length = 0 ∨ m >>> 6 = 1 ∧ tail.length = 1 ∨ m >>> 6 = 2 ∧ tail.length = 4

/-- Addressing bytes with a register field: of a register, of a base, or of a base behind a second
byte. Without a displacement the base is none that stands for no register. -/
inductive Addressed (r : RegNum) : List UInt8 → Prop
  | reg {m : UInt8} (mode : m >>> 6 = 3) (field : (m >>> 3) &&& 7 = low3 r) : Addressed r [m]
  | base {m : UInt8} {tail : List UInt8} (mode : Moded m tail) (field : (m >>> 3) &&& 7 = low3 r)
      (first : m &&& 7 ≠ 4) (based : m >>> 6 = 0 → m &&& 7 ≠ 5) : Addressed r (m :: tail)
  | second {m s : UInt8} {tail : List UInt8} (mode : Moded m tail) (field : (m >>> 3) &&& 7 = low3 r)
      (first : m &&& 7 = 4) (based : m >>> 6 = 0 → s &&& 7 ≠ 5) : Addressed r (m :: s :: tail)

theorem modrm_fields (mode : Fin 4) (r : RegNum) (rm : Fin 8) :
    modrm (UInt8.ofNat mode.val) (low3 r) (UInt8.ofNat rm.val) >>> 6 = UInt8.ofNat mode.val ∧
      (modrm (UInt8.ofNat mode.val) (low3 r) (UInt8.ofNat rm.val) >>> 3) &&& 7 = low3 r ∧
      modrm (UInt8.ofNat mode.val) (low3 r) (UInt8.ofNat rm.val) &&& 7 = UInt8.ofNat rm.val := by
  decide +revert

theorem sib_fields (index base : Fin 8) :
    sib (UInt8.ofNat index.val) (UInt8.ofNat base.val) &&& 7 = UInt8.ofNat base.val := by
  decide +revert

theorem exists_low3 (r : Reg) : ∃ n : Fin 8, r.low3 = UInt8.ofNat n.val :=
  ⟨⟨(r.index % 8).toNat, by omega⟩, rfl⟩

theorem toNat_low3 (r : RegNum) : (low3 r).toNat = r.val % 8 := by
  decide +revert

theorem exists_mode (base : Fin 8) (d : Int) : ∃ mode : Fin 4, ∃ tail : List UInt8,
    (mode = 0 ∧ tail.length = 0 ∧ UInt8.ofNat base.val ≠ 5 ∨ mode = 1 ∧ tail.length = 1 ∨
      mode = 2 ∧ tail.length = 4) ∧
      (if d = 0 ∧ UInt8.ofNat base.val ≠ 5 then ((0 : UInt8), ([] : List UInt8))
        else if fitsByte d then (1, littleEndian 1 (UInt64.ofInt d))
        else (2, littleEndian 4 (UInt64.ofInt d))) = (UInt8.ofNat mode.val, tail) := by
  by_cases none : d = 0 ∧ UInt8.ofNat base.val ≠ 5
  · exact ⟨0, [], .inl ⟨rfl, rfl, none.2⟩, by rw [if_pos none]; rfl⟩
  · rw [if_neg none]
    by_cases byte : fitsByte d = true
    · exact ⟨1, _, .inr (.inl ⟨rfl, length_littleEndian _ _⟩), if_pos byte⟩
    · exact ⟨2, _, .inr (.inr ⟨rfl, length_littleEndian _ _⟩), if_neg byte⟩

/-- Every operand is written in one of the three ways, whatever its registers and displacement. -/
theorem addressed_operandBytes (r : RegNum) (x : Rm) : Addressed r (operandBytes (low3 r) x) := by
  cases x with
  | reg y =>
    obtain ⟨mode, field, -⟩ := modrm_fields 3 r ⟨y.val % 8, by omega⟩
    exact .reg mode field
  | mem m =>
    obtain ⟨base, low⟩ := exists_low3 m.base
    obtain ⟨mode, tail, modes, chosen⟩ := exists_mode base m.disp.value
    have moded (rm : Fin 8) : Moded (modrm (UInt8.ofNat mode.val) (low3 r) (UInt8.ofNat rm.val)) tail := by
      rw [Moded, (modrm_fields mode r rm).1]
      rcases modes with ⟨rfl, length, -⟩ | ⟨rfl, length⟩ | ⟨rfl, length⟩
      · exact .inl ⟨rfl, length⟩
      · exact .inr (.inl ⟨rfl, length⟩)
      · exact .inr (.inr ⟨rfl, length⟩)
    have based (rm : Fin 8) (zero : modrm (UInt8.ofNat mode.val) (low3 r) (UInt8.ofNat rm.val) >>> 6 = 0) :
        UInt8.ofNat base.val ≠ 5 := by
      rw [(modrm_fields mode r rm).1] at zero
      rcases modes with ⟨-, -, other⟩ | ⟨rfl, -⟩ | ⟨rfl, -⟩
      · exact other
      · exact absurd zero (by decide)
      · exact absurd zero (by decide)
    have behind (index : Fin 8) : Addressed r (modrm (UInt8.ofNat mode.val) (low3 r) 4
        :: sib (UInt8.ofNat index.val) (UInt8.ofNat base.val) :: tail) := by
      obtain ⟨-, field, first⟩ := modrm_fields mode r 4
      refine .second (moded 4) field first fun zero => ?_
      rw [sib_fields]
      exact based 4 zero
    simp only [operandBytes, low, chosen]
    cases m.index with
    | some index =>
      obtain ⟨n, number⟩ := exists_low3 index
      dsimp only
      rw [number]
      exact behind n
    | none =>
      by_cases stack : UInt8.ofNat base.val = 4
      · rw [if_pos stack]
        exact behind 4
      · rw [if_neg stack]
        obtain ⟨-, field, first⟩ := modrm_fields mode r base
        refine .base (moded base) field ?_ fun zero => ?_
        · rwa [first]
        · rw [first]
          exact based base zero

section
variable {r : RegNum} {bytes : List UInt8}

theorem addressingLength?_append (addressed : Addressed r bytes) (rest : List UInt8) :
    addressingLength? (bytes ++ rest) = some bytes.length := by
  cases addressed with
  | reg mode => simp [addressingLength?, mode]
  | base mode _ first based =>
    rcases mode with ⟨mode, length⟩ | ⟨mode, length⟩ | ⟨mode, length⟩
    · simp [addressingLength?, mode, length, first, based mode]
    · simp [addressingLength?, mode, length, first]
    · simp [addressingLength?, mode, length, first]
  | second mode _ first based =>
    rcases mode with ⟨mode, length⟩ | ⟨mode, length⟩ | ⟨mode, length⟩
    · simp [addressingLength?, mode, length, first, based mode]
    · simp [addressingLength?, mode, length, first]
    · simp [addressingLength?, mode, length, first]

/-- The low three bits of a byte as a number, with an extension bit above them. -/
theorem low_extended (m : UInt8) (k : Nat) : ((m &&& 7).toNat + 8 * k) % 8 = (m &&& 7).toNat := by
  have short : (m &&& 7).toNat < 8 := by
    rw [UInt8.toNat_and]
    exact Nat.lt_of_le_of_lt Nat.and_le_right (by decide)
  omega

theorem Moded.memory {m : UInt8} {tail : List UInt8} (mode : Moded m tail) : (m >>> 6).toNat ≠ 3 := by
  rcases mode with ⟨mode, -⟩ | ⟨mode, -⟩ | ⟨mode, -⟩ <;> rw [mode] <;> decide

theorem Moded.length {m : UInt8} {tail : List UInt8} (mode : Moded m tail) :
    tail.length = if (m >>> 6).toNat = 1 then 1 else if (m >>> 6).toNat = 2 then 4 else 0 := by
  rcases mode with ⟨mode, length⟩ | ⟨mode, length⟩ | ⟨mode, length⟩ <;> rw [mode, length] <;> rfl

/-- The base that a reader refuses without a displacement is not written so. -/
theorem base_allowed {m s : UInt8} (k : Nat) (based : m >>> 6 = 0 → s &&& 7 ≠ 5) :
    ¬ ((m >>> 6).toNat = 0 ∧ ((s &&& 7).toNat + 8 * k) % 8 = 5) := by
  rw [low_extended]
  rintro ⟨zero, five⟩
  exact based (UInt8.toNat_inj.1 zero) (UInt8.toNat_inj.1 five)

/-- The addressing bytes are read to their end, with the register field as it was written. -/
theorem readOperands?_append (addressed : Addressed r bytes) (p : Prefixes) (rest : List UInt8) :
    ∃ reg rm, readOperands? p (bytes ++ rest) = some (r.val % 8, reg, rm, rest) := by
  suffices read : (readOperands? p (bytes ++ rest)).map (fun x => (x.1, x.2.2.2)) = some (r.val % 8, rest) by
    obtain ⟨⟨digit, reg, rm, rest'⟩, found, same⟩ := Option.map_eq_some_iff.1 read
    cases same
    exact ⟨reg, rm, found⟩
  cases addressed with
  | reg mode field =>
    simp only [readOperands?, List.cons_append, List.nil_append, mode, field, toNat_low3]
    rfl
  | @base m tail mode field first based =>
    have plain : (m &&& 7).toNat ≠ 4 := fun same => first (UInt8.toNat_inj.1 same)
    simp only [readOperands?, List.cons_append, field, toNat_low3, if_neg mode.memory, if_neg plain,
      Option.bind_eq_bind, Option.bind_some, if_neg (base_allowed _ based), ← mode.length,
      List.length_append, Nat.not_lt.2 (Nat.le_add_right _ _), if_false, List.drop_left' rfl]
    rfl
  | @second m s tail mode field first based =>
    have stack : (m &&& 7).toNat = 4 := congrArg UInt8.toNat first
    simp only [readOperands?, List.cons_append, field, toNat_low3, if_neg mode.memory, stack,
      Option.bind_eq_bind, Option.bind_some, if_neg (base_allowed _ based), ← mode.length,
      List.length_append, Nat.not_lt.2 (Nat.le_add_right _ _), if_false, List.drop_left' rfl]
    rfl

end

/-! ## VEX -/

/-- The name of a form in VEX: the vector length, the mandatory prefix, the map, the operand-size bit
and the opcode. -/
def vexText (f : Form) (long : Bool) : String :=
  "vex." ++ (if long then "256" else "128")
    ++ (match f.pre with | .none => "" | .p66 => ".66" | .pF3 => ".f3" | .pF2 => ".f2")
    ++ (match f.map with | .one => "" | .m0F => ".0f" | .m0F38 => ".0f38" | .m0F3A => ".0f3a")
    ++ ".w" ++ (if f.wide then "1" else "0") ++ " " ++ Text.hexPadded 2 f.opcode.toNat

/-- The fields that a prefix is written with. -/
def Form.fields (f : Form) (long : Bool) : VexFields :=
  ⟨f.map.code, f.pre.code, bit f.wide 0, bit long 0⟩

theorem text_fields (f : Form) (long : Bool) : (f.fields long).text f.opcode = vexText f long := by
  have pre : (["", ".66", ".f3", ".f2"][f.pre.code.toNat]?).getD ""
      = match f.pre with | .none => "" | .p66 => ".66" | .pF3 => ".f3" | .pF2 => ".f2" := by
    cases f.pre <;> rfl
  have map : (["", ".0f", ".0f38", ".0f3a"][f.map.code.toNat]?).getD ""
      = match f.map with | .one => "" | .m0F => ".0f" | .m0F38 => ".0f38" | .m0F3A => ".0f3a" := by
    cases f.map <;> rfl
  have wide : toString (bit f.wide 0).toNat = if f.wide then "1" else "0" := by
    cases f.wide <;> decide
  simp only [VexFields.text, Form.fields, vexText, pre, map, wide]
  cases long <;> rfl

theorem vexLast_read (top : Bool) (pre : Mandatory) (long : Bool) (v : RegNum) :
    vexLast top pre long v &&& 3 = pre.code ∧ (vexLast top pre long v >>> 2) &&& 1 = bit long 0 ∧
      vexLast top pre long v >>> 7 = bit top 0 := by
  cases pre <;> decide +revert

theorem vexFirst_read (r x b : Bool) (map : OpcodeMap) : vexFirst r x b map &&& 0x1F = map.code := by
  cases map <;> decide +revert

/-- The fields are read back from the short form of the prefix and from the long one. -/
theorem vexFields?_vexBytes (f : Form) (long r x b : Bool) (v : RegNum) (rest : List UInt8) :
    vexFields? (vexBytes f long r x b v ++ rest) = some (f.fields long, rest) := by
  rw [vexBytes_eq]
  split
  · next compact =>
    have clear : f.wide = false ∧ f.map = .m0F := by
      simp only [Bool.and_eq_true, Bool.not_eq_true', beq_iff_eq] at compact
      exact ⟨compact.1.2, compact.2⟩
    obtain ⟨pre, length, -⟩ := vexLast_read (!r) f.pre long v
    simp only [List.cons_append, List.nil_append, vexFields?, pre, length, Form.fields, clear]
    rfl
  · obtain ⟨pre, length, wide⟩ := vexLast_read f.wide f.pre long v
    simp only [List.cons_append, List.nil_append, vexFields?, pre, length, wide, vexFirst_read, Form.fields]

theorem map_code {map : OpcodeMap} (escaped : map ≠ .one) : ¬ (map.code < 1 ∨ 3 < map.code) := by
  cases map with
  | one => exact absurd rfl escaped
  | m0F | m0F38 | m0F3A => decide

theorem vexBytes_length (f : Form) (long r x b : Bool) (v : RegNum) :
    2 ≤ (vexBytes f long r x b v).length := by
  rw [vexBytes_eq]
  split <;> simp

theorem Addressed.pos {r : RegNum} {bytes : List UInt8} (addressed : Addressed r bytes) :
    1 ≤ bytes.length := by
  cases addressed <;> simp

theorem vexBytes_ne (f : Form) (long r x b : Bool) (v : RegNum) (rest : List UInt8) :
    ∃ lead bs, vexBytes f long r x b v ++ rest = lead :: bs ∧ lead ≠ 0x67 := by
  rw [vexBytes_eq]
  split
  · exact ⟨0xC5, _, rfl, by decide⟩
  · exact ⟨0xC4, _, rfl, by decide⟩

/-- The part of reading VEX behind the address-size prefix. -/
def decodeVexBody? (code body : List UInt8) (short : Bool) : Option Found := do
  if body.length < 4 then none
  else
    let (f, rest) ← vexFields? body
    if f.map < 1 ∨ 3 < f.map ∨ rest.length < 2 then none
    else match rest with
      | [] => none
      | opcode :: rest =>
        let n ← addressingLength? rest
        let used := n + if vexImmediate f.map opcode then 1 else 0
        if rest.length < used then none
        else
          some ⟨code.length - rest.length + used,
            (if short then "addr32 " else "") ++ f.text opcode⟩

theorem decodeVex?_eq (short : Bool) {lead : UInt8} (other : lead ≠ 0x67) (bs : List UInt8) :
    decodeVex? ((if short then [0x67] else []) ++ lead :: bs)
      = decodeVexBody? ((if short then [0x67] else []) ++ lead :: bs) (lead :: bs) short := by
  cases short with
  | true => rfl
  | false =>
    show decodeVex? (lead :: bs) = decodeVexBody? (lead :: bs) (lead :: bs) false
    unfold decodeVex?
    split
    next mark body front =>
    split at front
    · next same =>
      cases same
      exact absurd rfl other
    · cases front
      rfl

/-- An instruction in VEX is found in front of any bytes, with its whole length and the fields of its
prefix in the text. -/
theorem decodeVex?_vex {f : Form} {imm : List UInt8} (escaped : f.map ≠ .one)
    (given : imm.length = if vexImmediate f.map.code f.opcode then 1 else 0) (long : Bool) (r v : RegNum)
    (x : Rm) (short : Bool) (rest : List UInt8) :
    decodeVex? ((Insn.vex f long r v x imm).bytes short ++ rest)
      = some ⟨((Insn.vex f long r v x imm).bytes short).length,
        (if short && x.isMem then "addr32 " else "") ++ vexText f long⟩ := by
  have addressed := addressed_operandBytes r x
  have positive := addressed.pos
  have sized := vexBytes_length f long (high r) x.extensions.1 x.extensions.2 v
  obtain ⟨lead, bs, split, other⟩ := vexBytes_ne f long (high r) x.extensions.1 x.extensions.2 v
    (f.opcode :: (operandBytes (low3 r) x ++ (imm ++ rest)))
  have room : ¬ (vexBytes f long (high r) x.extensions.1 x.extensions.2 v
      ++ f.opcode :: (operandBytes (low3 r) x ++ (imm ++ rest))).length < 4 := by
    simp only [List.length_append, List.length_cons]
    omega
  have mapped : ¬ (f.map.code < 1 ∨ 3 < f.map.code ∨
      (f.opcode :: (operandBytes (low3 r) x ++ (imm ++ rest))).length < 2) := by
    have code := map_code escaped
    simp only [List.length_append, List.length_cons]
    rintro (low | high | few)
    · exact code (.inl low)
    · exact code (.inr high)
    · omega
  have enough : ¬ (operandBytes (low3 r) x ++ (imm ++ rest)).length
      < (operandBytes (low3 r) x).length + imm.length := by
    simp only [List.length_append]
    omega
  simp only [Insn.bytes, List.append_assoc, List.cons_append, List.nil_append]
  rw [split, decodeVex?_eq _ other, ← split, decodeVexBody?, if_neg room, vexFields?_vexBytes]
  simp only [Option.bind_eq_bind, Option.bind_some, Form.fields, if_neg mapped,
    addressingLength?_append addressed, ← given, if_neg enough]
  have text := text_fields f long
  rw [Form.fields] at text
  rw [text]
  congr 2
  simp only [List.length_append, List.length_cons]
  omega

/-- Code whose first byte behind the address-size prefix is no VEX prefix is none of VEX. -/
theorem decodeVex?_other (short : Bool) {lead : UInt8} (plain : lead ≠ 0x67) (long : lead ≠ 0xC4)
    (compact : lead ≠ 0xC5) (bs : List UInt8) :
    decodeVex? ((if short then [0x67] else []) ++ lead :: bs) = none := by
  have unread : vexFields? (lead :: bs) = none := by
    unfold vexFields?
    split
    · next same => cases same; exact absurd rfl compact
    · next same => cases same; exact absurd rfl long
    · rfl
  rw [decodeVex?_eq _ plain, decodeVexBody?, unread]
  split <;> rfl

/-! ## Prefixes -/

/-- The address-size prefix in front of code. -/
def shortFront : List UInt8 → Bool × List UInt8
  | 0x67 :: rest => (true, rest)
  | code => (false, code)

/-- The mandatory prefix in front of code. -/
def mandatoryFront : List UInt8 → Mandatory × List UInt8
  | 0x66 :: rest => (.p66, rest)
  | 0xF3 :: rest => (.pF3, rest)
  | 0xF2 :: rest => (.pF2, rest)
  | code => (.none, code)

theorem shortFront_append (short : Bool) {b : UInt8} (other : b ≠ 0x67) (bs : List UInt8) :
    shortFront ((if short then [0x67] else []) ++ b :: bs) = (short, b :: bs) := by
  cases short with
  | true => rfl
  | false =>
    show shortFront (b :: bs) = _
    unfold shortFront
    split
    · next same => cases same; exact absurd rfl other
    · rfl

theorem mandatoryFront_append (pre : Mandatory) {b : UInt8} (ends : Body b) (bs : List UInt8) :
    mandatoryFront (pre.bytes ++ b :: bs) = (pre, b :: bs) := by
  obtain ⟨-, h66, hF3, hF2⟩ := ends
  cases pre with
  | none =>
    show mandatoryFront (b :: bs) = _
    unfold mandatoryFront
    split
    · next same => cases same; exact absurd rfl h66
    · next same => cases same; exact absurd rfl hF3
    · next same => cases same; exact absurd rfl hF2
    · rfl
  | p66 | pF3 | pF2 => rfl

/-- The byte behind an address-size prefix, of an instruction that is not in VEX. -/
theorem exists_lead (pre : Mandatory) {b : UInt8} (ends : Body b) (long : b ≠ 0xC4) (compact : b ≠ 0xC5)
    (bs : List UInt8) : ∃ lead rest, pre.bytes ++ b :: bs = lead :: rest ∧ lead ≠ 0x67 ∧ lead ≠ 0xC4 ∧
      lead ≠ 0xC5 := by
  cases pre with
  | none => exact ⟨b, bs, rfl, ends.1, long, compact⟩
  | p66 | pF3 | pF2 => exact ⟨_, _, rfl, by decide, by decide, by decide⟩

theorem read_eq (code : List UInt8) : Prefixes.read code =
    match shortFront code with
    | (short, code) => match mandatoryFront code with
      | (pre, code) => match code with
        | b :: rest => if b >>> 4 = 4 then (⟨short, pre, some b⟩, rest) else (⟨short, pre, none⟩, code)
        | [] => (⟨short, pre, none⟩, []) := rfl

/-- The prefixes that an instruction is written with are read, up to a byte that starts its opcode. -/
theorem read_start (short : Bool) (pre : Mandatory) {b : UInt8} (start : Start b) (bs : List UInt8) :
    Prefixes.read ((if short then [0x67] else []) ++ (pre.bytes ++ b :: bs))
      = (⟨short, pre, none⟩, b :: bs) := by
  obtain ⟨ends, hC5, hC4, plain⟩ := start
  obtain ⟨lead, rest, split, other, -⟩ := exists_lead pre ends hC4 hC5 bs
  have unextended : b >>> 4 ≠ 4 := by
    intro extension
    have value := congrArg UInt8.toNat extension
    rw [UInt8.toNat_shiftRight, Nat.shiftRight_eq_div_pow] at value
    exact plain value
  rw [split, read_eq, shortFront_append _ other, ← split]
  dsimp only
  rw [mandatoryFront_append _ ends]
  exact if_neg unextended

theorem rex_shift (w r x b : Bool) : rex w r x b >>> 4 = 4 := by
  decide +revert

theorem read_rex (short : Bool) (pre : Mandatory) (w r x b : Bool) (bs : List UInt8) :
    Prefixes.read ((if short then [0x67] else []) ++ (pre.bytes ++ rex w r x b :: bs))
      = (⟨short, pre, some (rex w r x b)⟩, bs) := by
  obtain ⟨hC5, hC4, -⟩ := rex_fields w r x b
  obtain ⟨lead, rest, split, other, -⟩ := exists_lead pre (body_rex w r x b) hC4 hC5 bs
  rw [split, read_eq, shortFront_append _ other, ← split]
  dsimp only
  rw [mandatoryFront_append _ (body_rex w r x b)]
  exact if_pos (rex_shift w r x b)

/-! ## Names -/

/-- The letters of a name that is not that of a byte of data. -/
def worded : List Char → Bool
  | a :: b :: _ => !(a == 'd' && b == 'b')
  | _ => false

/-- A text that names an instruction and no byte of data. -/
def Worded (text : List Char) : Prop := ¬ "db ".toList <+: text

theorem worded_append {name : List Char} (named : worded name = true) (more : List Char) :
    Worded (name ++ more) := by
  unfold worded at named
  split at named
  · next a b rest =>
    intro data
    have start : ['d', 'b', ' '] <+: a :: b :: (rest ++ more) := data
    rw [List.cons_prefix_cons, List.cons_prefix_cons] at start
    obtain ⟨rfl, rfl, -⟩ := start
    cases named
  · cases named

theorem worded_lower {name : String} (named : worded (Text.lower name.toList) = true) (more : String) :
    Worded (Text.lower (name ++ more).toList) := by
  rw [String.toList_append, Text.lower, List.map_append]
  exact worded_append named _

/-- The bytes of an immediate operand. -/
def Slot.bytes : Slot → Nat
  | .imm8 => 1
  | .imm32 => 4
  | _ => 0

/-- The bytes of the immediates among operands. -/
def slotBytes (slots : List Slot) : Nat := @List.sum Nat _ .ofOfNat0 (slots.map Slot.bytes)

theorem readImmediate?_append (imm rest : List UInt8) :
    ∃ v, readImmediate? imm.length (imm ++ rest) = some (v, rest) := by
  refine ⟨signedValue ((imm ++ rest).take imm.length), ?_⟩
  rw [readImmediate?, if_neg (by simp), List.drop_left' rfl]

/-- The operands are read up to the end of their immediates. -/
theorem slotTexts?_append (rex : Bool) (reg : Nat) (rm : Size → String) {slots : List Slot}
    {imm : List UInt8} (whole : imm.length = slotBytes slots) (rest : List UInt8) :
    ∃ texts, slotTexts? rex reg rm slots (imm ++ rest) = some (texts, rest) := by
  induction slots generalizing imm with
  | nil =>
    obtain rfl := List.eq_nil_of_length_eq_zero whole
    exact ⟨[], rfl⟩
  | cons slot slots ih =>
    have split : imm.length = slot.bytes + slotBytes slots := whole
    have front : (imm.take slot.bytes).length = slot.bytes := by
      rw [List.length_take]
      omega
    have back : (imm.drop slot.bytes).length = slotBytes slots := by
      rw [List.length_drop]
      omega
    obtain ⟨texts, read⟩ := ih back
    obtain ⟨v, value⟩ := readImmediate?_append (imm.take slot.bytes) (imm.drop slot.bytes ++ rest)
    rw [front, ← List.append_assoc, List.take_append_drop] at value
    cases slot with
    | imm8 | imm32 =>
      rw [Slot.bytes] at value read
      refine ⟨Text.hex v :: texts, ?_⟩
      simp only [slotTexts?, value, Option.map_some, Option.bind_eq_bind, Option.bind_some, read]
      rfl
    | reg size =>
      refine ⟨registerName size rex reg :: texts, ?_⟩
      simp only [Slot.bytes, List.drop_zero] at read
      simp only [slotTexts?, Option.bind_eq_bind, Option.bind_some, read]
      rfl
    | rm size =>
      refine ⟨rm size :: texts, ?_⟩
      simp only [Slot.bytes, List.drop_zero] at read
      simp only [slotTexts?, Option.bind_eq_bind, Option.bind_some, read]
      rfl
    | fixed name =>
      refine ⟨name :: texts, ?_⟩
      simp only [Slot.bytes, List.drop_zero] at read
      simp only [slotTexts?, Option.bind_eq_bind, Option.bind_some, read]
      rfl

namespace Form

/-- What the tables of names have for a form. -/
def named? (f : Form) (size : Size) (digit : Nat) : Option (String × List Slot) :=
  match f.map with
  | .one => generalName? size f.opcode digit
  | .m0F => escapedName? f.pre size f.opcode digit
  | .m0F38 =>
    if f.opcode = 0x10 then some ("pblendvb", [.reg .xmm, .rm .xmm, .fixed "x0"])
    else (packed38Names.lookup f.opcode).map (·, [.reg .xmm, .rm .xmm])
  | .m0F3A => none

/-- Whether the opcode of a form leads to those tables. -/
def tabled (f : Form) : Bool :=
  match f.map with
  | .one => f.opcode != 0x0F && f.opcode != 0xE9 && f.opcode != 0x3D && f.opcode >>> 3 != 0x0A
    && f.opcode >>> 3 != 0x0B && f.opcode >>> 3 != 0x17
  | .m0F => f.opcode != 0x38 && f.opcode >>> 4 != 8
  | .m0F38 => f.pre == .p66
  | .m0F3A => false

/-- Whether an entry is there, with immediates of some bytes. -/
def entered (n : Nat) : Option (String × List Slot) → Bool
  | some (name, slots) => slotBytes slots == n && worded (Text.lower name.toList)
  | none => false

/-- A form with a register field that is found by name, with an immediate of some bytes, whatever the
size of its operands. -/
def Readable (f : Form) (r : RegNum) (n : Nat) : Prop :=
  f.Legacy ∧ f.tabled = true ∧
    ∀ size ∈ [Size.byte, .word, .dword, .qword, .xmm], entered n (f.named? size (r.val % 8)) = true

instance (f : Form) (r : RegNum) (n : Nat) : Decidable (f.Readable r n) :=
  inferInstanceAs (Decidable (_ ∧ _))

theorem Readable.entry {f : Form} {r : RegNum} {n : Nat} (readable : f.Readable r n) (size : Size) :
    ∃ name slots, f.named? size (r.val % 8) = some (name, slots) ∧ slotBytes slots = n ∧
      worded (Text.lower name.toList) = true := by
  have entry := readable.2.2 size (by cases size <;> decide)
  cases found : f.named? size (r.val % 8) with
  | none =>
    rw [found] at entry
    cases entry
  | some t =>
    obtain ⟨name, slots⟩ := t
    rw [found] at entry
    simp only [entered, Bool.and_eq_true, beq_iff_eq] at entry
    exact ⟨name, slots, rfl, entry⟩

end Form

/-- An entry of a table of names as it is read: the operands, the name and the immediates. -/
def readListed? (p : Prefixes) (find : Nat → Option (String × List Slot)) (code : List UInt8) :
    Option (String × List UInt8) := do
  let (digit, reg, rm, rest) ← readOperands? p code
  let (name, slots) ← find digit
  let (texts, rest) ← slotTexts? p.rex.isSome reg rm slots rest
  return (name ++ " " ++ ", ".intercalate texts, rest)

theorem readListed?_append {r : RegNum} {ops imm : List UInt8} (addressed : Addressed r ops)
    {find : Nat → Option (String × List Slot)} {name : String} {slots : List Slot}
    (found : find (r.val % 8) = some (name, slots)) (whole : imm.length = slotBytes slots)
    (named : worded (Text.lower name.toList) = true) (p : Prefixes) (rest : List UInt8) :
    ∃ text, readListed? p find (ops ++ (imm ++ rest)) = some (text, rest) ∧ Worded (Text.lower text.toList) := by
  obtain ⟨reg, rm, operands⟩ := readOperands?_append addressed p (imm ++ rest)
  obtain ⟨texts, read⟩ := slotTexts?_append p.rex.isSome reg rm whole rest
  refine ⟨name ++ (" " ++ ", ".intercalate texts), ?_, worded_lower named _⟩
  simp only [readListed?, operands, Option.bind_eq_bind, Option.bind_some, found, read,
    String.append_assoc]
  rfl

/-- What an opcode of one byte leads to: pushes, pops and moves of immediates have the register in the
opcode, and the others are in a table. -/
theorem readNamed?_one {opcode : UInt8} (escape : opcode ≠ 0x0F) (jump : opcode ≠ 0xE9)
    (compare : opcode ≠ 0x3D) (p : Prefixes) (code : List UInt8) :
    readNamed? p (opcode :: code)
      = if opcode >>> 3 = 0x0A then
          some ("push " ++ registerName .qword false ((opcode &&& 7).toNat + 8 * p.rexBit 0), code)
        else if opcode >>> 3 = 0x0B then
          some ("pop " ++ registerName .qword false ((opcode &&& 7).toNat + 8 * p.rexBit 0), code)
        else if opcode >>> 3 = 0x17 then
          (readImmediate? 4 code).bind fun (v, rest) =>
            some ("mov " ++ registerName .dword false ((opcode &&& 7).toNat + 8 * p.rexBit 0) ++ ", "
              ++ Text.hex v, rest)
        else readListed? p (generalName? p.size opcode) code := by
  unfold readNamed?
  dsimp only
  split
  · next same => cases same; exact absurd rfl escape
  · next same => cases same; exact absurd rfl escape
  · next same => cases same; exact absurd rfl jump
  · next same => cases same; exact absurd rfl compare
  · next same =>
    cases same
    rfl
  · next same => cases same

/-- What an opcode behind the escape byte leads to: jumps on a condition have it in the opcode, and the
others are in a table. -/
theorem readNamed?_escaped {opcode : UInt8} (escape : opcode ≠ 0x38) (p : Prefixes)
    (code : List UInt8) :
    readNamed? p (0x0F :: opcode :: code)
      = if opcode >>> 4 = 8 then
          (readImmediate? 4 code).bind fun (v, rest) =>
            some (jumpText ("j" ++ conditionLetters (opcode &&& 15)) v, rest)
        else readListed? p (escapedName? p.pre p.size opcode) code := by
  unfold readNamed?
  dsimp only
  split
  · next same => cases same; exact absurd rfl escape
  · next same =>
    cases same
    rfl
  · next same => cases same
  · next same => cases same
  · next escaped _ _ same =>
    cases same
    exact (escaped _ _ rfl rfl).elim
  · next same => cases same

/-- The tables that the opcode of a form leads to. -/
theorem readNamed?_tabled {f : Form} (tabled : f.tabled = true) {p : Prefixes} (pre : p.pre = f.pre)
    (code : List UInt8) :
    readNamed? p (f.map.bytes ++ f.opcode :: code) = readListed? p (f.named? p.size) code := by
  obtain ⟨fpre, map, opcode, wide⟩ := f
  cases map with
  | one =>
    simp only [Form.tabled, Bool.and_eq_true, bne_iff_ne] at tabled
    obtain ⟨⟨⟨⟨⟨escape, jump⟩, compare⟩, push⟩, pop⟩, move⟩ := tabled
    show readNamed? p (opcode :: code) = readListed? p (generalName? p.size opcode) code
    rw [readNamed?_one escape jump compare, if_neg push, if_neg pop, if_neg move]
  | m0F =>
    simp only [Form.tabled, Bool.and_eq_true, bne_iff_ne] at tabled
    obtain ⟨escape, jump⟩ := tabled
    show readNamed? p (0x0F :: opcode :: code) = readListed? p (escapedName? fpre p.size opcode) code
    rw [readNamed?_escaped escape, if_neg jump, pre]
  | m0F38 =>
    have packed : p.pre = .p66 := pre.trans (eq_of_beq tabled)
    show (if p.pre ≠ .p66 then none
      else if opcode = 0x10 then
        readListed? p (fun _ => some ("pblendvb", [.reg .xmm, .rm .xmm, .fixed "x0"])) code
      else readListed? p (fun _ => (packed38Names.lookup opcode).map (·, [.reg .xmm, .rm .xmm])) code) = _
    rw [if_neg fun other => other packed]
    by_cases blend : opcode = 0x10
    · rw [if_pos blend, blend]
      rfl
    · have names : (Form.mk fpre .m0F38 opcode wide).named? p.size
          = fun _ => (packed38Names.lookup opcode).map (·, [.reg .xmm, .rm .xmm]) := by
        funext digit
        exact if_neg blend
      rw [if_neg blend, names]
  | m0F3A => cases tabled

/-! ## Instructions outside VEX -/

/-- What is found at the front of code: the length of some bytes, under a name. -/
def Finds (bytes : List UInt8) : Prop :=
  ∀ rest, decodeVex? (bytes ++ rest) = none ∧
    ∃ text, decodeLegacy? (bytes ++ rest) = some ⟨bytes.length, text⟩ ∧ Worded (Text.lower text.toList)

/-- An instruction is found where its prefixes are read and the rest of it is named. -/
theorem finds_of_named {bytes body : List UInt8} {p : Prefixes}
    (outside : ∀ rest, decodeVex? (bytes ++ rest) = none)
    (prefixes : ∀ rest, Prefixes.read (bytes ++ rest) = (p, body ++ rest))
    (named : ∀ rest, ∃ text, readNamed? p (body ++ rest) = some (text, rest) ∧ Worded (Text.lower text.toList)) :
    Finds bytes := by
  intro rest
  refine ⟨outside rest, ?_⟩
  obtain ⟨text, read, worded⟩ := named rest
  refine ⟨text, ?_, worded⟩
  simp only [decodeLegacy?, prefixes, Option.bind_eq_bind, Option.bind_some, read]
  simp

/-- An instruction outside VEX is found in front of any bytes. -/
theorem finds_legacy {f : Form} {r : RegNum} {imm : List UInt8} (readable : f.Readable r imm.length)
    (x : Rm) (short : Bool) : Finds ((Insn.legacy f r x imm).bytes short) := by
  obtain ⟨legacy, tabled, -⟩ := id readable
  have addressed := addressed_operandBytes r x
  have named {p : Prefixes} (pre : p.pre = f.pre) (rest : List UInt8) : ∃ text,
      readNamed? p ((f.map.bytes ++ f.opcode :: (operandBytes (low3 r) x ++ imm)) ++ rest)
        = some (text, rest) ∧ Worded (Text.lower text.toList) := by
    obtain ⟨name, slots, found, whole, worded⟩ := readable.entry p.size
    obtain ⟨text, read, worded⟩ := readListed?_append addressed found whole.symm worded p rest
    refine ⟨text, ?_, worded⟩
    rw [List.append_assoc, List.cons_append, readNamed?_tabled tabled pre, List.append_assoc]
    exact read
  have bytes : (Insn.legacy f r x imm).bytes short = (if short && x.isMem then [0x67] else [])
      ++ (f.pre.bytes ++ ((if f.wide || high r || x.extensions.1 || x.extensions.2
        then [rex f.wide (high r) x.extensions.1 x.extensions.2] else [])
        ++ (f.map.bytes ++ f.opcode :: (operandBytes (low3 r) x ++ imm)))) := by
    simp [Insn.bytes]
  by_cases extension : (f.wide || high r || x.extensions.1 || x.extensions.2) = true
  · obtain ⟨hC5, hC4, -⟩ := rex_fields f.wide (high r) x.extensions.1 x.extensions.2
    rw [if_pos extension] at bytes
    refine finds_of_named (p := ⟨short && x.isMem, f.pre,
      some (rex f.wide (high r) x.extensions.1 x.extensions.2)⟩) (fun rest => ?_) (fun rest => ?_)
      (named rfl)
    · obtain ⟨lead, bs, split, plain, long, compact⟩ := exists_lead f.pre (body_rex ..) hC4 hC5
        ((f.map.bytes ++ f.opcode :: (operandBytes (low3 r) x ++ imm)) ++ rest)
      rw [bytes, List.append_assoc, List.append_assoc, List.append_assoc, List.cons_append,
        List.nil_append, split]
      exact decodeVex?_other _ plain long compact _
    · rw [bytes, List.append_assoc, List.append_assoc, List.append_assoc, List.cons_append,
        List.nil_append, read_rex]
  · rw [if_neg extension, List.nil_append] at bytes
    refine finds_of_named (p := ⟨short && x.isMem, f.pre, none⟩) (fun rest => ?_) (fun rest => ?_)
      (named rfl)
    · obtain ⟨b, bs, split, start⟩ := start_of_legacy legacy
        ((operandBytes (low3 r) x ++ imm) ++ rest)
      obtain ⟨lead, tail, front, plain, long, compact⟩ := exists_lead f.pre start.1 start.2.2.1
        start.2.1 bs
      rw [bytes, List.append_assoc, List.append_assoc, List.append_assoc, List.cons_append, split, front]
      exact decodeVex?_other _ plain long compact _
    · obtain ⟨b, bs, split, start⟩ := start_of_legacy legacy
        ((operandBytes (low3 r) x ++ imm) ++ rest)
      rw [bytes, List.append_assoc, List.append_assoc, List.append_assoc, List.cons_append, split,
        read_start _ _ start]

/-- An instruction without prefixes is found by its opcode. -/
theorem finds_plain {b : UInt8} (start : Start b) {bs : List UInt8}
    (named : ∀ p rest, ∃ text, readNamed? p (b :: bs ++ rest) = some (text, rest) ∧ Worded (Text.lower text.toList)) :
    Finds (b :: bs) := by
  obtain ⟨ends, compact, long, -⟩ := id start
  refine finds_of_named (p := ⟨false, .none, none⟩) (fun rest => ?_) (fun rest => ?_) (named _)
  · exact decodeVex?_other false ends.1 long compact _
  · exact read_start false .none start _

/-- An instruction with the register in its opcode is found by the opcode, with or without the
extension bit in front. -/
theorem finds_shortForm {opcode : UInt8} {r : RegNum} (start : Start (opcode + low3 r)) {tail : List UInt8}
    (named : ∀ p rest, ∃ text, readNamed? p ((opcode + low3 r) :: tail ++ rest) = some (text, rest) ∧
      Worded (Text.lower text.toList)) : Finds (shortForm opcode r ++ tail) := by
  unfold shortForm
  cases high r with
  | false => exact finds_plain start named
  | true =>
    obtain ⟨compact, long, -⟩ := rex_fields false false false true
    refine finds_of_named (p := ⟨false, .none, some (rex false false false true)⟩) (fun rest => ?_)
      (fun rest => ?_) (named _)
    · exact decodeVex?_other false (body_rex ..).1 long compact _
    · exact read_rex false .none false false false true _

/-- The register in an opcode does not change which instruction it is of. -/
theorem shortForm_facts (r : RegNum) : ∀ opcode ∈ ([0x50, 0x58, 0xB8] : List UInt8),
    Start (opcode + low3 r) ∧ opcode + low3 r ≠ 0x0F ∧ opcode + low3 r ≠ 0xE9 ∧
      opcode + low3 r ≠ 0x3D ∧ (opcode + low3 r) >>> 3 = opcode >>> 3 := by
  decide +revert +kernel

theorem finds_push (r : RegNum) : Finds (shortForm 0x50 r) := by
  obtain ⟨start, escape, jump, compare, group⟩ := shortForm_facts r 0x50 (by decide)
  rw [← List.append_nil (shortForm 0x50 r)]
  refine finds_shortForm start fun p rest => ?_
  rw [List.cons_append, List.nil_append, readNamed?_one escape jump compare, group, if_pos (by decide)]
  exact ⟨_, rfl, worded_lower (by decide) _⟩

theorem finds_pop (r : RegNum) : Finds (shortForm 0x58 r) := by
  obtain ⟨start, escape, jump, compare, group⟩ := shortForm_facts r 0x58 (by decide)
  rw [← List.append_nil (shortForm 0x58 r)]
  refine finds_shortForm start fun p rest => ?_
  rw [List.cons_append, List.nil_append, readNamed?_one escape jump compare, group, if_neg (by decide),
    if_pos (by decide)]
  exact ⟨_, rfl, worded_lower (by decide) _⟩

theorem finds_movImm (r : RegNum) (v : UInt32) : Finds (shortForm 0xB8 r ++ word32 v) := by
  obtain ⟨start, escape, jump, compare, group⟩ := shortForm_facts r 0xB8 (by decide)
  refine finds_shortForm start fun p rest => ?_
  obtain ⟨n, value⟩ := readImmediate?_append (word32 v) rest
  rw [show (word32 v).length = 4 from length_littleEndian _ _] at value
  rw [List.cons_append, readNamed?_one escape jump compare, group, if_neg (by decide),
    if_neg (by decide), if_pos (by decide), value, Option.bind_some]
  refine ⟨_, rfl, ?_⟩
  rw [String.append_assoc, String.append_assoc]
  exact worded_lower (by decide) _

theorem finds_cmpImm {imm : List UInt8} (whole : imm.length = 4) : Finds (0x3D :: imm) := by
  refine finds_plain (by decide) fun p rest => ?_
  obtain ⟨n, value⟩ := readImmediate?_append imm rest
  rw [whole] at value
  refine ⟨"cmp " ++ (registerName p.size false 0 ++ ", " ++ Text.hex n), ?_, worded_lower (by decide) _⟩
  simp only [List.cons_append, readNamed?, value, Option.bind_eq_bind, Option.bind_some,
    String.append_assoc]
  rfl

/-- A jump is found whatever its distance. -/
theorem finds_jmp {distance : List UInt8} (whole : distance.length = 4) : Finds (0xE9 :: distance) := by
  refine finds_plain (by decide) fun p rest => ?_
  obtain ⟨n, value⟩ := readImmediate?_append distance rest
  rw [whole] at value
  refine ⟨jumpText "jmp" n, ?_, ?_⟩
  · simp only [List.cons_append, readNamed?, value, Option.bind_eq_bind, Option.bind_some]
    rfl
  · rw [jumpText, String.append_assoc, String.append_assoc]
    exact worded_lower (by decide) _

theorem condition_facts (cc : Fin 16) :
    (0x80 + UInt8.ofNat cc.val) >>> 4 = 8 ∧ 0x80 + UInt8.ofNat cc.val ≠ 0x38 ∧
      worded (Text.lower ("j" ++ conditionLetters ((0x80 + UInt8.ofNat cc.val) &&& 15)).toList) = true := by
  decide +revert +kernel

theorem finds_jcc {cc : UInt8} (code : cc < 16) {distance : List UInt8} (whole : distance.length = 4) :
    Finds (0x0F :: (0x80 + cc) :: distance) := by
  obtain ⟨jump, escape, named⟩ : (0x80 + cc) >>> 4 = 8 ∧ 0x80 + cc ≠ 0x38 ∧
      worded (Text.lower ("j" ++ conditionLetters ((0x80 + cc) &&& 15)).toList) = true := by
    have facts := condition_facts ⟨cc.toNat, code⟩
    rwa [UInt8.ofNat_toNat] at facts
  refine finds_plain (by decide) fun p rest => ?_
  obtain ⟨n, value⟩ := readImmediate?_append distance rest
  rw [whole] at value
  rw [List.cons_append, List.cons_append, readNamed?_escaped escape, if_pos jump, value]
  refine ⟨_, rfl, ?_⟩
  rw [jumpText, String.append_assoc, String.append_assoc]
  exact worded_lower named _

end LaneAsm.X86
