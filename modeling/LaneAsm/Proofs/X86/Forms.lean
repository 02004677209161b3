import LaneAsm.Proofs.Lanes
import LaneAsm.X86.Select

/-!
What the forms of instructions mean. Some work on words or move a vector between a register and memory
(`Form.meaning?`). Others combine two vectors (`Form.give?`): they copy, work on bits, blend, or are
the forms of integer operations, which a `VectorUnit` computes.
-/
namespace LaneAsm

/-- Every valid integer type. -/
def Elem.integers : List Elem := [u8, s8, u16, s16, u32, s32, u64, s64]

theorem Elem.mem_integers {e : Elem} (valid : e.valid = true) (whole : e.isFloat = false) :
    e ∈ integers := by
  obtain ⟨bits, kind⟩ := e
  have widths : bits = 8 ∨ bits = 16 ∨ bits = 32 ∨ bits = 64 := bits_of_valid valid
  rcases widths with rfl | rfl | rfl | rfl <;> cases kind <;> first | decide | cases whole

/-- Whether an operation gives the same bits on signed and on unsigned lanes. -/
def Op.signless : Op → Bool
  | .add | .sub | .mul | .ceq | .shl | .svl => true
  | _ => false

/-- Lane types on which an operation is the same: they differ at most in a sign that it does not
look at. -/
def Elem.Alike (op : Op) (d e : Elem) : Prop :=
  d.bits = e.bits ∧ d.isFloat = false ∧ (d.kind = e.kind ∨ op.signless = true)

instance (op : Op) (d e : Elem) : Decidable (Elem.Alike op d e) :=
  inferInstanceAs (Decidable (_ ∧ _))

namespace X86

/-! ## Arithmetic -/

/-- Every operation on every integer type. -/
def integerOps : List (Op × Elem) := Op.named.flatMap fun op => Elem.integers.map fun e => (op, e)

/-- The operation that a form encodes. -/
def ofForm? (f : Form) : Option (Op × Elem) :=
  integerOps.find? fun (op, e) => (nativeForm? op e).map (·.1) == some f

theorem mem_named {op : Op} {e : Elem} (whole : e.isFloat = false)
    (native : (nativeForm? op e).isSome = true) : op ∈ Op.named := by
  cases op <;> first | decide | simp [nativeForm?, whole] at native

theorem ofForm?_all : ∀ op ∈ Op.named, ∀ e ∈ Elem.integers, ∀ f ∈ (nativeForm? op e).map (·.1),
    ∃ p ∈ ofForm? f, p.1 = op ∧ Elem.Alike op p.2 e := by
  decide +kernel

section
variable {op : Op} {e : Elem} (valid : e.valid = true) (whole : e.isFloat = false)
include valid whole

theorem ofForm?_native {f : Form} {level : Level} (native : nativeForm? op e = some (f, level)) :
    ∃ d, ofForm? f = some (op, d) ∧ Elem.Alike op d e := by
  have named : op ∈ Op.named := mem_named whole (by rw [native]; rfl)
  obtain ⟨⟨_, d⟩, found, rfl, alike⟩ := ofForm?_all op named e (Elem.mem_integers valid whole) f
    (by rw [native]; rfl)
  exact ⟨d, found, alike⟩

end

/-- What the opcodes of vector arithmetic give on sixteen bytes: those of an operation compute its
lanes, shifts by one count at least for counts below the lane width. -/
structure VectorUnit where
  /-- Whether vectors outside VEX have to be aligned in memory. -/
  strict : Bool
  binary : Form → Bytes → Bytes → Bytes
  shift : Form → RegNum → Bytes → UInt8 → Bytes
  size_binary : ∀ (f : Form) {a b : Bytes}, a.size = 16 → b.size = 16 → (binary f a b).size = 16
  binary_eq : ∀ {op : Op} {e : Elem} {f : Form} {level : Level}, e.valid = true →
    e.isFloat = false → nativeForm? op e = some (f, level) → ∀ {a b : Bytes}, a.size = 16 →
    b.size = 16 → (op = .shl ∨ op = .shr → (wordOf (b.toList.take 8)).toNat < e.bits) →
    Lanes.eval? op e a b = some (binary f a b)
  shift_eq : ∀ {op : Op} {e : Elem}, op = .shl ∨ op = .shr → e.valid = true → e.isFloat = false →
    (nativeForm? op e).isSome = true → ∀ {a : Bytes} {n : UInt8}, a.size = 16 → n.toNat < e.bits →
    Lanes.shift? op e a n.toUInt64 = some (shift (.shiftGroup e.bits) (shiftDigit op e) a n)

/-! ## Words and moves -/

/-- What the opcodes of expansions do with a register and a register or memory. -/
inductive Meaning where
  | loadVector
  | storeVector
  | load (bits : Nat)
  | store (bits : Nat)
  | zeroExtend (bits : Nat)
  | signExtend (bits wide : Nat)
  | add (bits : Nat)
  | sub (bits : Nat)
  | mul (bits : Nat)
  | compare (bits : Nat)
  | andByte (bits : Nat)
  | negate (bits : Nat)
  | shiftLeft (bits : Nat)
  | shiftRight (bits : Nat)
  | shiftRightSigned (bits : Nat)
  | moveIf (cc bits : Nat)
  | setIf (cc : Nat)
deriving Repr, DecidableEq

/-- The meaning of a form; in a group of opcodes the register number picks one. -/
def Form.meaning? (f : Form) (r : RegNum) : Option Meaning :=
  let bits := if f.wide then 64 else 32
  match f.pre, f.map, f.opcode.toNat with
  | .none, .one, 0x01 => some (.add bits)
  | .none, .one, 0x29 => some (.sub bits)
  | .none, .one, 0x39 => some (.compare bits)
  | .none, .one, 0x83 => if r.val = 4 then some (.andByte bits) else none
  | .none, .one, 0x88 => some (.store 8)
  | .none, .one, 0x89 => some (.store bits)
  | .p66, .one, 0x89 => some (.store 16)
  | .none, .one, 0x8B => some (.load bits)
  | .none, .one, 0xD3 =>
    match r.val with
    | 4 => some (.shiftLeft bits)
    | 5 => some (.shiftRight bits)
    | 7 => some (.shiftRightSigned bits)
    | _ => none
  | .none, .one, 0xF7 => if r.val = 3 then some (.negate bits) else none
  | .none, .m0F, 0x10 => some .loadVector
  | .none, .m0F, 0x11 => some .storeVector
  | .none, .m0F, 0xAF => some (.mul bits)
  | .none, .m0F, 0xB6 => some (.zeroExtend 8)
  | .none, .m0F, 0xB7 => some (.zeroExtend 16)
  | .none, .m0F, 0xBE => some (.signExtend 8 bits)
  | .none, .m0F, 0xBF => some (.signExtend 16 bits)
  | .none, .m0F, n =>
    if 0x40 ≤ n ∧ n < 0x50 then some (.moveIf (n - 0x40) bits)
    else if 0x90 ≤ n ∧ n < 0xA0 then some (.setIf (n - 0x90))
    else none
  | _, _, _ => none

/-! ## Vectors -/

/-- The operation on bytes of a form that works on bits. -/
def Form.bitwise? (f : Form) : Option (UInt8 → UInt8 → UInt8) :=
  if f = .andps then some fun a b => a &&& b
  else if f = .andnps then some fun a b => ~~~a &&& b
  else if f = .orps then some fun a b => a ||| b
  else if f = .xorps then some fun a b => a ^^^ b
  else none

/-- The bytes of the second vector where those of a mask have their top bit set, and the bytes of the
first elsewhere. -/
def blend (mask a b : Bytes) : Bytes :=
  Array.zipWith (fun m (x, y) => if 0x80 ≤ m then y else x) mask (Array.zip a b)

/-- What a form gives on two vectors. Of arithmetic only what short vectors give is known. A blend
takes its mask from the first register, or from the one in the upper half of an immediate. -/
def Form.give? (u : VectorUnit) (f : Form) (long : Bool) (imm : List UInt8) (held : RegNum → Bytes)
    (a b : Bytes) : Option Bytes :=
  match imm with
  | [] =>
    match ofForm? f with
    | some _ => if long then none else some (u.binary f a b)
    | none =>
      if f = .movaps then some b
      else if f = .pblendvb then some (blend (held 0) a b)
      else f.bitwise?.map fun g => Array.zipWith g a b
  | [k] =>
    if f = .vpblendvb then some (blend (held (Fin.ofNat 16 (k.toNat / 16))) a b) else none
  | _ => none

/-- Whether a form takes a vector from memory only if it is aligned there: an aligned move does, and
outside VEX all that a strict unit combines. -/
def Form.aligned (u : VectorUnit) (inVex : Bool) (f : Form) : Bool :=
  f == .movaps || (!inVex && u.strict)

/-- Whether a form is a group of shifts by an immediate. -/
def Form.isShiftGroup (f : Form) : Bool := [16, 32, 64].any (.shiftGroup · == f)

section
variable (u : VectorUnit) (long : Bool) (held : RegNum → Bytes) (a b : Bytes)

theorem give?_movaps : Form.movaps.give? u long [] held a b = some b := rfl

theorem give?_andps :
    Form.andps.give? u long [] held a b = some (Array.zipWith (fun x y => x &&& y) a b) := rfl

theorem give?_andnps :
    Form.andnps.give? u long [] held a b = some (Array.zipWith (fun x y => ~~~x &&& y) a b) := rfl

theorem give?_orps :
    Form.orps.give? u long [] held a b = some (Array.zipWith (fun x y => x ||| y) a b) := rfl

theorem give?_xorps :
    Form.xorps.give? u long [] held a b = some (Array.zipWith (fun x y => x ^^^ y) a b) := rfl

theorem give?_pblendvb :
    Form.pblendvb.give? u long [] held a b = some (blend (held 0) a b) := rfl

/-- The forms of integer operations give what the vector unit does. -/
theorem give?_native {op : Op} {e : Elem} (valid : e.valid = true) (whole : e.isFloat = false)
    {f : Form} {level : Level} (native : nativeForm? op e = some (f, level)) :
    f.give? u false [] held a b = some (u.binary f a b) := by
  obtain ⟨d, found, _⟩ := ofForm?_native valid whole native
  simp only [Form.give?, found]
  rfl

/-- The upper half of the immediate of a blend is the number of its mask. -/
theorem give?_vpblendvb (m : RegNum) :
    Form.vpblendvb.give? u long [UInt8.ofNat (m.val * 16)] held a b = some (blend (held m) a b) := by
  have small := m.isLt
  have number : (Fin.ofNat 16 ((UInt8.ofNat (m.val * 16)).toNat / 16) : RegNum) = m := by
    rw [Fin.ext_iff, Fin.val_ofNat, UInt8.toNat_ofNat']
    omega
  rw [Form.give?, number]
  rfl

end

/-- The forms of integer operations have no meaning on words. -/
theorem meaning?_native {op : Op} {e : Elem} (whole : e.isFloat = false) {f : Form} {level : Level}
    (native : nativeForm? op e = some (f, level)) (r : RegNum) : f.meaning? r = none := by
  have short (opcode : UInt8) : (Form.p66 opcode).meaning? r = none := rfl
  have long (opcode : UInt8) (w : Bool) : ((Form.p6638 opcode).sized w).meaning? r = none := rfl
  have long' (opcode : UInt8) : (Form.p6638 opcode).meaning? r = none := rfl
  cases op <;> grind [nativeForm?, formByBits, minMaxForm?, shiftEachForm?]

theorem exists_nativeForm?_of_ofForm? {f : Form} {p : Op × Elem} (found : ofForm? f = some p) :
    p.2.isFloat = false ∧ ∃ level, nativeForm? p.1 p.2 = some (f, level) := by
  have whole : ∀ e ∈ Elem.integers, e.isFloat = false := by decide
  have listed := List.mem_of_find?_eq_some found
  simp only [integerOps, List.mem_flatMap, List.mem_map] at listed
  obtain ⟨op, -, e, member, rfl⟩ := listed
  have native := eq_of_beq (List.find?_some
    (p := fun q : Op × Elem => (nativeForm? q.1 q.2).map (·.1) == some f) found)
  obtain ⟨⟨_, level⟩, form, rfl⟩ := Option.map_eq_some_iff.mp native
  exact ⟨whole e member, level, form⟩

theorem Form.mem_of_bitwise? {f : Form} {g : UInt8 → UInt8 → UInt8} (bits : f.bitwise? = some g) :
    f = .andps ∨ f = .andnps ∨ f = .orps ∨ f = .xorps := by
  rw [bitwise?] at bits
  split at bits
  · next same => exact .inl same
  split at bits
  · next same => exact .inr (.inl same)
  split at bits
  · next same => exact .inr (.inr (.inl same))
  split at bits
  · next same => exact .inr (.inr (.inr same))
  · cases bits

/-- A form that gives something on vectors is no form of words, and no shift by an immediate. -/
theorem Form.meaning?_of_give? {u : VectorUnit} {f : Form} {long : Bool} {imm : List UInt8}
    {held : RegNum → Bytes} {a b v : Bytes} (gives : f.give? u long imm held a b = some v)
    (r : RegNum) : f.meaning? r = none ∧ f.isShiftGroup = false := by
  unfold give? at gives
  split at gives
  · split at gives
    · next p found =>
      obtain ⟨whole, level, native⟩ := exists_nativeForm?_of_ofForm? found
      refine ⟨meaning?_native whole native r, ?_⟩
      have apart : ∀ bits ∈ [16, 32, 64], ofForm? (.shiftGroup bits) = none := by decide +kernel
      rw [isShiftGroup, List.any_eq_false]
      intro bits member same
      rw [← eq_of_beq same, apart bits member] at found
      cases found
    · split at gives
      · next same => exact same ▸ ⟨rfl, rfl⟩
      · split at gives
        · next same => exact same ▸ ⟨rfl, rfl⟩
        · obtain ⟨g, bits, -⟩ := Option.map_eq_some_iff.mp gives
          rcases mem_of_bitwise? bits with rfl | rfl | rfl | rfl <;> exact ⟨rfl, rfl⟩
  · split at gives
    · next same => exact same ▸ ⟨rfl, rfl⟩
    · cases gives
  · cases gives

/-- The forms of integer operations need alignment outside VEX, if the unit is strict. -/
theorem aligned_native {op : Op} {e : Elem} (valid : e.valid = true) (whole : e.isFloat = false)
    {f : Form} {level : Level} (native : nativeForm? op e = some (f, level)) (u : VectorUnit)
    (inVex : Bool) : f.aligned u inVex = (!inVex && u.strict) := by
  have apart : f ≠ .movaps := by
    rintro rfl
    obtain ⟨d, found, -⟩ := ofForm?_native valid whole native
    cases found
  simp [Form.aligned, apart]

end X86

end LaneAsm
