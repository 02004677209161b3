import LaneAsm.Proofs.Msa.Execution
import LaneAsm.Proofs.X86.Lane

/-!
Base values in the registers of MIPS. A value of `w` bits is held sign-extended in a register of `n`
bits (`extended`). On values that are held so, the instructions that are selected for base operations
compute what the reference machine does: operations on registers (`eval_registerForm`), with short
immediates (`eval_immediateForm`) and shifts (`eval_left`, `eval_right`, `eval_rightSigned`). The
comparisons see the values in the order that the reference machine does (`ult_extended`,
`slt_extended`).
-/
namespace LaneAsm.Msa

open Lane (Spells)

/-! ## Sign-extended values -/

/-- What a register of `n` bits holds for a base value of `w` bits. -/
def extended (w n : Nat) (x : UInt64) : BitVec n := (x.toBitVec.setWidth w).signExtend n

section
variable {w n : Nat}

theorem setWidth_signExtend (wide : w ≤ n) (x : BitVec w) : (x.signExtend n).setWidth w = x := by
  apply BitVec.eq_of_getLsbD_eq
  intro i below
  have inside : i < n := by omega
  rw [BitVec.getLsbD_setWidth, BitVec.getLsbD_signExtend, if_pos below]
  simp [below, inside]

theorem setWidth_extended (wide : w ≤ n) (x : UInt64) :
    (extended w n x).setWidth w = x.toBitVec.setWidth w := setWidth_signExtend wide _

theorem isWord_signExtend (wide : 32 ≤ n) (x : BitVec 32) : IsWord (x.signExtend n) := by
  rw [IsWord, setWidth_signExtend wide]

theorem extended_and (x y : UInt64) :
    extended w n (x &&& y) = extended w n x &&& extended w n y := by
  rw [extended, UInt64.toBitVec_and, BitVec.setWidth_and, BitVec.signExtend_and]
  rfl

theorem extended_or (x y : UInt64) :
    extended w n (x ||| y) = extended w n x ||| extended w n y := by
  rw [extended, UInt64.toBitVec_or, BitVec.setWidth_or, BitVec.signExtend_or]
  rfl

theorem extended_xor (x y : UInt64) :
    extended w n (x ^^^ y) = extended w n x ^^^ extended w n y := by
  rw [extended, UInt64.toBitVec_xor, BitVec.setWidth_xor, BitVec.signExtend_xor]
  rfl

/-- A number that a narrow register holds with its sign is the same in a wide one. -/
theorem signExtend_ofInt {k : Int} (least : -2 ^ w ≤ k) (most : k < 2 ^ w) :
    (BitVec.ofInt (w + 1) k).signExtend n = BitVec.ofInt n k := by
  have range : ((2 ^ (w + 1) : Nat) : Int) = 2 * 2 ^ w := by
    rw [Nat.pow_succ]
    push_cast
    omega
  rw [BitVec.signExtend, BitVec.toInt_ofInt, Int.bmod_eq_of_le (by omega) (by omega)]

theorem toBitVec_ofInt (v : Int) : (UInt16.ofInt v).toBitVec = BitVec.ofInt 16 v := by
  apply BitVec.eq_of_toNat_eq
  rw [BitVec.toNat_ofInt, UInt16.toNat_toBitVec, UInt16.ofInt, UInt16.toNat_ofNat']
  omega

/-- A short immediate that is not signed. -/
theorem setWidth_ofInt {v : Int} (least : 0 ≤ v) (most : v ≤ 0xFFFF) (wide : 16 ≤ n) :
    (BitVec.ofInt 16 v).setWidth n = BitVec.ofInt n v := by
  obtain ⟨k, rfl⟩ := Int.eq_ofNat_of_zero_le least
  have room : 2 ^ 16 ≤ 2 ^ n := Nat.pow_le_pow_right (by decide) wide
  rw [BitVec.ofInt_natCast, BitVec.ofInt_natCast]
  apply BitVec.eq_of_toNat_eq
  rw [BitVec.toNat_setWidth, BitVec.toNat_ofNat, BitVec.toNat_ofNat, Nat.mod_eq_of_lt (by omega),
    Nat.mod_eq_of_lt (by omega), Nat.mod_eq_of_lt (by omega)]

/-- A value of 64 bits fills its register. -/
theorem extended_full (x : UInt64) : extended 64 64 x = x.toBitVec := by
  rw [extended, BitVec.setWidth_eq, BitVec.signExtend_eq]

theorem doublewise_full (x : BitVec 64) : doublewise x = some x := if_pos rfl

section
variable (wide : 32 ≤ n) (a b : BitVec 32)
include wide

theorem addu_signExtend :
    Special.addu.eval? 0 (a.signExtend n) (b.signExtend n) = some ((a + b).signExtend n) := by
  have words : ∀ x ∈ [a.signExtend n, b.signExtend n], IsWord x := by
    simp [isWord_signExtend wide]
  rw [Special.eval?, wordwise, if_pos words, setWidth_signExtend wide, setWidth_signExtend wide]

theorem subu_signExtend :
    Special.subu.eval? 0 (a.signExtend n) (b.signExtend n) = some ((a - b).signExtend n) := by
  have words : ∀ x ∈ [a.signExtend n, b.signExtend n], IsWord x := by
    simp [isWord_signExtend wide]
  rw [Special.eval?, wordwise, if_pos words, setWidth_signExtend wide, setWidth_signExtend wide]

theorem addiu_signExtend (value : BitVec 16) :
    ImmOp.addiu.eval? value (a.signExtend n) = some ((a + value.signExtend 32).signExtend n) := by
  have words : ∀ x ∈ [a.signExtend n], IsWord x := by simp [isWord_signExtend wide]
  rw [ImmOp.eval?, wordwise, if_pos words, setWidth_signExtend wide]

/-- A sum with a short number is the sum with a register that holds it. -/
theorem addiu_eq_addu {k : Int} (least : -2 ^ 15 ≤ k) (most : k < 2 ^ 15) :
    ImmOp.addiu.eval? (BitVec.ofInt 16 k) (a.signExtend n) =
      Special.addu.eval? 0 (a.signExtend n) (BitVec.ofInt n k) := by
  have number : (BitVec.ofInt 32 k).signExtend n = BitVec.ofInt n k :=
    signExtend_ofInt (by omega) (by omega)
  rw [addiu_signExtend wide, ← number, addu_signExtend wide, signExtend_ofInt least most]

/-- Adding the opposite of a short number is subtracting it. -/
theorem addiu_eq_subu {k : Int} (least : -2 ^ 15 ≤ -k) (most : -k < 2 ^ 15) :
    ImmOp.addiu.eval? (BitVec.ofInt 16 (-k)) (a.signExtend n) =
      Special.subu.eval? 0 (a.signExtend n) (BitVec.ofInt n k) := by
  have number : (BitVec.ofInt 32 k).signExtend n = BitVec.ofInt n k :=
    signExtend_ofInt (by omega) (by omega)
  rw [addiu_signExtend wide, ← number, subu_signExtend wide, signExtend_ofInt least most,
    BitVec.ofInt_neg, ← BitVec.sub_eq_add_neg]

end

theorem daddiu_eq_daddu {k : Int} (least : -2 ^ 15 ≤ k) (most : k < 2 ^ 15) (a : BitVec n) :
    ImmOp.daddiu.eval? (BitVec.ofInt 16 k) a = Special.daddu.eval? 0 a (BitVec.ofInt n k) := by
  rw [ImmOp.eval?, signExtend_ofInt least most, Special.eval?]

theorem daddiu_eq_dsubu {k : Int} (least : -2 ^ 15 ≤ -k) (most : -k < 2 ^ 15) (a : BitVec n) :
    ImmOp.daddiu.eval? (BitVec.ofInt 16 (-k)) a = Special.dsubu.eval? 0 a (BitVec.ofInt n k) := by
  rw [ImmOp.eval?, signExtend_ofInt least most, Special.eval?, BitVec.ofInt_neg,
    ← BitVec.sub_eq_add_neg]

/-- A word that spells a number as a lane holds it modulo the range of the lane. -/
theorem setWidth_of_spells {e : Elem} {x : UInt64} {k : Int} (spelled : Spells e x k) :
    x.toBitVec.setWidth e.bits = BitVec.ofInt e.bits k := by
  apply BitVec.eq_of_toInt_eq
  rw [BitVec.toInt_setWidth, BitVec.toInt_ofInt, UInt64.toNat_toBitVec]
  have same : (x.toNat : Int) % (2 ^ e.bits : Nat) = k % (2 ^ e.bits : Nat) := by
    simpa [Spells] using spelled
  rw [← Int.emod_bmod, same, Int.emod_bmod]

section
variable {e : Elem} (valid : e.valid = true) (whole : e.isFloat = false) (x c : UInt64)
include valid whole

theorem setWidth_left : (Lane.eval .shl e x c).toBitVec.setWidth e.bits =
    x.toBitVec.setWidth e.bits <<< (c.toNat % e.bits) := by
  rw [setWidth_of_spells (Lane.spells_left valid whole (.inl rfl) x c)]
  apply BitVec.eq_of_toNat_eq
  have power : (x.toNat : Int) * 2 ^ (c.toNat % e.bits) = (x.toNat * 2 ^ (c.toNat % e.bits) : Nat) := by
    simp
  rw [power, BitVec.ofInt_natCast, BitVec.toNat_ofNat, BitVec.toNat_shiftLeft, Nat.shiftLeft_eq,
    BitVec.toNat_setWidth, UInt64.toNat_toBitVec, Nat.mod_mul_mod]

theorem setWidth_right (unsigned : e.kind ≠ .signed) :
    (Lane.eval .shr e x c).toBitVec.setWidth e.bits =
      x.toBitVec.setWidth e.bits >>> (c.toNat % e.bits) := by
  have low : (x.toBitVec.setWidth e.bits).toNat = x.toNat % 2 ^ e.bits := by
    rw [BitVec.toNat_setWidth, UInt64.toNat_toBitVec]
  have value : Lane.value e x / 2 ^ (c.toNat % e.bits) =
      (x.toNat % 2 ^ e.bits / 2 ^ (c.toNat % e.bits) : Nat) := by
    rw [Lane.value, if_neg unsigned]
    simp
  rw [setWidth_of_spells (Lane.spells_right valid whole (.inl rfl) x c), value]
  apply BitVec.eq_of_toNat_eq
  rw [BitVec.ofInt_natCast, BitVec.toNat_ofNat, BitVec.toNat_ushiftRight, low,
    Nat.shiftRight_eq_div_pow, Nat.mod_eq_of_lt]
  exact Nat.lt_of_le_of_lt (Nat.div_le_self _ _) (Nat.mod_lt _ (Nat.two_pow_pos _))

theorem setWidth_rightSigned (signed : e.kind = .signed) :
    (Lane.eval .shr e x c).toBitVec.setWidth e.bits =
      (x.toBitVec.setWidth e.bits).sshiftRight (c.toNat % e.bits) := by
  have value : Lane.value e x = (x.toBitVec.setWidth e.bits).toInt := by
    rw [Lane.value, if_pos signed, BitVec.toInt_setWidth, UInt64.toNat_toBitVec]
  rw [setWidth_of_spells (Lane.spells_right valid whole (.inl rfl) x c), value, BitVec.sshiftRight,
    Int.shiftRight_eq_div_pow]
  simp

end

end

/-! ## Base values -/

/-- The counts of a shift are taken modulo the lane width. -/
theorem toNat_maskedCount {bits : Nat} (width : bits = 8 ∨ bits = 16 ∨ bits = 32 ∨ bits = 64) (v : Int) :
    (UInt32.ofInt v &&& UInt32.ofInt ((bits : Int) - 1)).toNat = (UInt64.ofInt v).toNat % bits := by
  have narrow : ((UInt32.ofInt v).toNat : Int) = v % 2 ^ 32 := by
    rw [UInt32.ofInt, UInt32.toNat_ofNat']
    omega
  have full := toNat_ofInt v
  rw [UInt32.toNat_and]
  rcases width with rfl | rfl | rfl | rfl
  · refine (Nat.and_two_pow_sub_one_eq_mod _ 3).trans ?_
    omega
  · refine (Nat.and_two_pow_sub_one_eq_mod _ 4).trans ?_
    omega
  · refine (Nat.and_two_pow_sub_one_eq_mod _ 5).trans ?_
    omega
  · refine (Nat.and_two_pow_sub_one_eq_mod _ 6).trans ?_
    omega

/-- The processors and the widths of base registers: 32 bits on either, 64 only on the one of 64. -/
inductive BaseTarget (cfg : Config) : Nat → Prop where
  | mips32 (isa : cfg.isa = .mips32) (base : cfg.baseBits = 32) : BaseTarget cfg 32
  | mips64 (isa : cfg.isa = .mips64) (base : cfg.baseBits = 32 ∨ cfg.baseBits = 64) :
    BaseTarget cfg 64

namespace BaseTarget

variable {cfg : Config} {n : Nat} (target : BaseTarget cfg n)
include target

/-- Base operations are those on words or those on doublewords. -/
theorem widths : (cfg.baseBits = 32 ∧ base64 cfg = false ∧ (n = 32 ∨ n = 64)) ∨
    (cfg.baseBits = 64 ∧ base64 cfg = true ∧ n = 64) := by
  cases target with
  | mips32 isa base => exact .inl ⟨base, by simp [base64, base], .inl rfl⟩
  | mips64 isa base =>
    rcases base with base | base
    · exact .inl ⟨base, by simp [base64, base], .inr rfl⟩
    · exact .inr ⟨base, by simp [base64, base, isa], rfl⟩

/-- The element type of base values. -/
theorem valid (kind : Kind) : Elem.valid ⟨cfg.baseBits, kind⟩ = true := by
  rcases target.widths with ⟨bits, _⟩ | ⟨bits, _⟩ <;> rw [bits] <;> rfl

theorem le : cfg.baseBits ≤ n := by
  rcases target.widths with ⟨bits, _, rfl | rfl⟩ | ⟨bits, _, rfl⟩ <;> omega

theorem word_le : 32 ≤ n := by
  rcases target.widths with ⟨_, _, rfl | rfl⟩ | ⟨_, _, rfl⟩ <;> omega

theorem baseMask_eq : Machine.baseMask cfg = Elem.mask ⟨cfg.baseBits, .unsigned⟩ := by
  rcases target.widths with ⟨bits, _⟩ | ⟨bits, _⟩ <;> simp [Machine.baseMask, bits] <;> rfl

theorem toNat_and_baseMask (x : UInt64) :
    (x &&& Machine.baseMask cfg).toNat = x.toNat % 2 ^ cfg.baseBits := by
  rw [target.baseMask_eq]
  exact Elem.toNat_and_mask (target.valid .unsigned) x

/-- What is cut off was not held. -/
theorem extended_and_baseMask (x : UInt64) :
    extended cfg.baseBits n (x &&& Machine.baseMask cfg) = extended cfg.baseBits n x := by
  have same : (x &&& Machine.baseMask cfg).toBitVec.setWidth cfg.baseBits =
      x.toBitVec.setWidth cfg.baseBits := by
    apply BitVec.eq_of_toNat_eq
    rw [BitVec.toNat_setWidth, BitVec.toNat_setWidth, UInt64.toNat_toBitVec, UInt64.toNat_toBitVec,
      target.toNat_and_baseMask, Nat.mod_mod]
  rw [extended, same]
  rfl

theorem extended_ofInt {k : Int} (least : -2 ^ 31 ≤ k) (most : k < 2 ^ 31) :
    extended cfg.baseBits n (UInt64.ofInt k) = BitVec.ofInt n k := by
  have spelled : Spells ⟨cfg.baseBits, .unsigned⟩ (UInt64.ofInt k) k :=
    X86.spells_ofInt (target.valid .unsigned) k
  have held : (UInt64.ofInt k).toBitVec.setWidth cfg.baseBits = BitVec.ofInt cfg.baseBits k :=
    setWidth_of_spells spelled
  rw [extended, held]
  rcases target.widths with ⟨bits, _⟩ | ⟨bits, _⟩ <;> rw [bits]
  · exact signExtend_ofInt least most
  · exact signExtend_ofInt (by omega) (by omega)

/-! ## Results -/

/-- An operation on registers gives what the reference machine gives. -/
theorem eval_registerForm {op : Op} {fn : Special} (found : registerForm? cfg op = some fn)
    (x y : UInt64) :
    fn.eval? 0 (extended cfg.baseBits n x) (extended cfg.baseBits n y) =
      some (extended cfg.baseBits n (Machine.baseResult op x y &&& Machine.baseMask cfg)) := by
  rw [target.extended_and_baseMask]
  have wide := target.word_le
  cases op with
  | add =>
    obtain rfl := Option.some.inj found
    rcases target.widths with ⟨bits, narrow, _⟩ | ⟨bits, double, rfl⟩
    · rw [bits, narrow]
      refine (addu_signExtend wide _ _).trans ?_
      rw [← BitVec.setWidth_add _ _ (by decide)]
      rfl
    · rw [bits, double, extended_full, extended_full, extended_full]
      exact doublewise_full _
  | sub =>
    obtain rfl := Option.some.inj found
    rcases target.widths with ⟨bits, narrow, _⟩ | ⟨bits, double, rfl⟩
    · rw [bits, narrow]
      refine (subu_signExtend wide _ _).trans ?_
      rw [BitVec.sub_eq_add_neg, ← BitVec.setWidth_neg_of_le (by decide),
        ← BitVec.setWidth_add _ _ (by decide), ← BitVec.sub_eq_add_neg]
      rfl
    · rw [bits, double, extended_full, extended_full, extended_full]
      exact doublewise_full _
  | and =>
    obtain rfl := Option.some.inj found
    exact congrArg some (extended_and x y).symm
  | orr =>
    obtain rfl := Option.some.inj found
    exact congrArg some (extended_or x y).symm
  | xor =>
    obtain rfl := Option.some.inj found
    exact congrArg some (extended_xor x y).symm
  | _ => cases found

/-- An immediate form computes what the form on registers does with the number. -/
theorem eval_immediateForm {op : Op} {v : Int} {iop : ImmOp} {value : UInt16}
    (found : immediateForm? cfg op v = some (iop, value)) (x : UInt64) :
    ∃ fn, registerForm? cfg op = some fn ∧
      iop.eval? value.toBitVec (extended cfg.baseBits n x) =
        fn.eval? 0 (extended cfg.baseBits n x) (BitVec.ofInt n v) := by
  have wide := target.word_le
  have bits {f : ImmOp} (given : (if (0 ≤ v && v ≤ 0xFFFF) = true then some (f, UInt16.ofInt v)
      else none) = some (iop, value)) : f = iop ∧ value.toBitVec.setWidth n = BitVec.ofInt n v := by
    split at given
    · next inside =>
      obtain ⟨rfl, rfl⟩ := Prod.mk.inj (Option.some.inj given)
      simp only [Bool.and_eq_true, decide_eq_true_eq] at inside
      rw [toBitVec_ofInt]
      exact ⟨rfl, setWidth_ofInt inside.1 inside.2 (by omega)⟩
    · cases given
  have sum {k : Int} (given : (if fitsShort k then
      some (if base64 cfg then ImmOp.daddiu else .addiu, UInt16.ofInt k) else none) =
        some (iop, value)) : (if base64 cfg then ImmOp.daddiu else .addiu) = iop ∧
          value.toBitVec = BitVec.ofInt 16 k ∧ -2 ^ 15 ≤ k ∧ k < 2 ^ 15 := by
    split at given
    · next fits =>
      obtain ⟨rfl, rfl⟩ := Prod.mk.inj (Option.some.inj given)
      simp only [fitsShort, Bool.and_eq_true, decide_eq_true_eq] at fits
      exact ⟨rfl, toBitVec_ofInt k, fits⟩
    · cases given
  unfold immediateForm? at found
  cases op with
  | add =>
    obtain ⟨rfl, number, least, most⟩ := sum found
    refine ⟨_, rfl, ?_⟩
    rw [number]
    rcases target.widths with ⟨base, narrow, _⟩ | ⟨base, double, rfl⟩
    · rw [base, narrow]
      exact addiu_eq_addu wide _ least most
    · rw [double]
      exact daddiu_eq_daddu least most _
  | sub =>
    obtain ⟨rfl, number, least, most⟩ := sum found
    refine ⟨_, rfl, ?_⟩
    rw [number]
    rcases target.widths with ⟨base, narrow, _⟩ | ⟨base, double, rfl⟩
    · rw [base, narrow]
      exact addiu_eq_subu wide _ least most
    · rw [double]
      exact daddiu_eq_dsubu least most _
  | and =>
    obtain ⟨rfl, number⟩ := bits found
    exact ⟨.and, rfl, congrArg (fun b => some (_ &&& b)) number⟩
  | orr =>
    obtain ⟨rfl, number⟩ := bits found
    exact ⟨.or, rfl, congrArg (fun b => some (_ ||| b)) number⟩
  | xor =>
    obtain ⟨rfl, number⟩ := bits found
    exact ⟨.xor, rfl, congrArg (fun b => some (_ ^^^ b)) number⟩
  | _ => cases found

/-- The count of a shift as it is encoded. -/
theorem count_eq (v : Int) :
    (UInt32.ofInt v &&& UInt32.ofInt ((cfg.baseBits : Int) - 1)).toNat =
      (UInt64.ofInt v).toNat % cfg.baseBits :=
  toNat_maskedCount (Elem.bits_of_valid (target.valid .unsigned)) v

theorem shiftForm_lt {k : Nat} (below : k < cfg.baseBits) (narrow low high : Special) :
    (shiftForm cfg narrow low high k).2 < 32 := by
  unfold shiftForm
  rcases target.widths with ⟨bits, single, _⟩ | ⟨bits, double, _⟩
  · simp only [single, Bool.false_eq_true, if_false]
    omega
  · simp only [double, if_true]
    split <;> dsimp only <;> omega

/-- A shift in its three encodings: of words, and of doublewords with a small count and a large one. -/
theorem eval_shiftForm {narrow low high : Special} (shift : {w : Nat} → BitVec w → Nat → BitVec w)
    (words : ∀ (x : BitVec 32) a k, narrow.eval? k a (x.signExtend n) =
      some ((shift x k).signExtend n))
    (few : ∀ (a b : BitVec n) k, low.eval? k a b = doublewise (shift b k))
    (many : ∀ (a b : BitVec n) k, high.eval? k a b = doublewise (shift b (k + 32)))
    {x y : UInt64} {k : Nat}
    (held : y.toBitVec.setWidth cfg.baseBits = shift (x.toBitVec.setWidth cfg.baseBits) k)
    (a : BitVec n) :
    (shiftForm cfg narrow low high k).1.eval? (shiftForm cfg narrow low high k).2 a
      (extended cfg.baseBits n x) = some (extended cfg.baseBits n y) := by
  rw [extended, extended, held]
  rcases target.widths with ⟨bits, single, _⟩ | ⟨bits, double, rfl⟩
  · rw [bits]
    simp only [shiftForm, single, Bool.false_eq_true, if_false]
    exact words _ a k
  · rw [bits, BitVec.setWidth_eq, BitVec.signExtend_eq, BitVec.signExtend_eq]
    by_cases large : 32 ≤ k
    · simp only [shiftForm, double, if_true, if_pos large]
      rw [many, Nat.sub_add_cancel large, doublewise_full]
    · simp only [shiftForm, double, if_true, if_neg large]
      rw [few, doublewise_full]

theorem eval_left (kind : Kind) (integer : kind ≠ .float) (x c : UInt64) (a : BitVec n) :
    let form := shiftForm cfg .sll .dsll .dsll32 (c.toNat % cfg.baseBits)
    form.1.eval? form.2 a (extended cfg.baseBits n x) =
      some (extended cfg.baseBits n (Lane.eval .shl ⟨cfg.baseBits, kind⟩ x c)) := by
  have held := setWidth_left (target.valid kind) (by simp [Elem.isFloat, integer]) x c
  refine target.eval_shiftForm (fun x k => x <<< k) ?_ (fun _ _ _ => rfl) (fun _ _ _ => rfl) held a
  intro y b k
  rw [Special.eval?, wordwise, if_pos (List.forall_mem_nil _), setWidth_signExtend target.word_le]

theorem eval_right (x c : UInt64) (a : BitVec n) :
    let form := shiftForm cfg .srl .dsrl .dsrl32 (c.toNat % cfg.baseBits)
    form.1.eval? form.2 a (extended cfg.baseBits n x) =
      some (extended cfg.baseBits n (Lane.eval .shr ⟨cfg.baseBits, .unsigned⟩ x c)) := by
  have held := setWidth_right (target.valid .unsigned) rfl x c nofun
  refine target.eval_shiftForm (fun x k => x >>> k) ?_ (fun _ _ _ => rfl) (fun _ _ _ => rfl) held a
  intro y b k
  have words : ∀ z ∈ [y.signExtend n], IsWord z := by simp [isWord_signExtend target.word_le]
  rw [Special.eval?, wordwise, if_pos words, setWidth_signExtend target.word_le]

theorem eval_rightSigned (x c : UInt64) (a : BitVec n) :
    let form := shiftForm cfg .sra .dsra .dsra32 (c.toNat % cfg.baseBits)
    form.1.eval? form.2 a (extended cfg.baseBits n x) =
      some (extended cfg.baseBits n (Lane.eval .shr ⟨cfg.baseBits, .signed⟩ x c)) := by
  have held := setWidth_rightSigned (target.valid .signed) rfl x c rfl
  refine target.eval_shiftForm (fun x k => x.sshiftRight k) ?_ (fun _ _ _ => rfl) (fun _ _ _ => rfl)
    held a
  intro y b k
  have words : ∀ z ∈ [y.signExtend n], IsWord z := by simp [isWord_signExtend target.word_le]
  rw [Special.eval?, wordwise, if_pos words, setWidth_signExtend target.word_le]

/-! ## Comparisons -/

theorem extended_inj (x y : UInt64) : extended cfg.baseBits n x = extended cfg.baseBits n y ↔
    x &&& Machine.baseMask cfg = y &&& Machine.baseMask cfg := by
  rw [← UInt64.toNat_inj, target.toNat_and_baseMask, target.toNat_and_baseMask]
  constructor
  · intro same
    have low := congrArg (BitVec.setWidth cfg.baseBits) same
    rw [setWidth_extended target.le, setWidth_extended target.le] at low
    simpa using congrArg BitVec.toNat low
  · intro same
    have low : x.toBitVec.setWidth cfg.baseBits = y.toBitVec.setWidth cfg.baseBits := by
      apply BitVec.eq_of_toNat_eq
      simpa using same
    rw [extended, low]
    rfl

/-- Sign extension keeps the order of unsigned values. -/
theorem ult_extended (x y : UInt64) :
    (extended cfg.baseBits n x).ult (extended cfg.baseBits n y) =
      decide (x &&& Machine.baseMask cfg < y &&& Machine.baseMask cfg) := by
  rw [BitVec.ult_eq_decide, Bool.eq_iff_iff, decide_eq_true_iff, decide_eq_true_iff,
    UInt64.lt_iff_toNat_lt, target.toNat_and_baseMask, target.toNat_and_baseMask, extended, extended,
    BitVec.toNat_signExtend, BitVec.toNat_signExtend, BitVec.msb_eq_decide, BitVec.msb_eq_decide]
  simp only [BitVec.toNat_setWidth, UInt64.toNat_toBitVec, decide_eq_true_eq]
  have left := Nat.mod_lt x.toNat (Nat.two_pow_pos cfg.baseBits)
  have right := Nat.mod_lt y.toNat (Nat.two_pow_pos cfg.baseBits)
  generalize x.toNat % 2 ^ cfg.baseBits = a at left ⊢
  generalize y.toNat % 2 ^ cfg.baseBits = b at right ⊢
  -- the values with a sign move up together, so that no two change places
  rcases target.widths with ⟨bits, _, rfl | rfl⟩ | ⟨bits, _, rfl⟩ <;> rw [bits] at left right ⊢ <;>
    split <;> split <;> omega

theorem slt_extended (x y : UInt64) :
    (extended cfg.baseBits n x).slt (extended cfg.baseBits n y) =
      decide (Lane.signExtend cfg.baseBits (x &&& Machine.baseMask cfg) <
        Lane.signExtend cfg.baseBits (y &&& Machine.baseMask cfg)) := by
  have value (z : UInt64) : (Lane.signExtend cfg.baseBits (z &&& Machine.baseMask cfg)).toInt =
      (extended cfg.baseBits n z).toInt := by
    rw [extended, BitVec.toInt_signExtend_of_le target.le, BitVec.toInt_setWidth,
      UInt64.toNat_toBitVec]
    refine (Lane.toInt_signExtend (target.valid .unsigned) _).trans ?_
    rw [target.toNat_and_baseMask, Int.natCast_emod]
    exact Int.emod_bmod _ _
  rw [Bool.eq_iff_iff, BitVec.slt_iff_toInt_lt, decide_eq_true_iff, Int64.lt_iff_toInt_lt, value,
    value]

/-- A comparison tells whether an ordered condition holds. -/
theorem eval_ordering {c : Cond} {o : Ordering} (found : Ordering.ofCond? c = some o) (x y : UInt64) :
    ∃ less : Bool, o.compare.eval? 0
      (if o.exchanged then extended cfg.baseBits n y else extended cfg.baseBits n x)
      (if o.exchanged then extended cfg.baseBits n x else extended cfg.baseBits n y) =
        some (if less then 1 else 0) ∧
    c.holds cfg.baseBits (x &&& Machine.baseMask cfg) (y &&& Machine.baseMask cfg) =
      (less == o.holds) := by
  have unsigned (a b : UInt64) :
      Special.sltu.eval? 0 (extended cfg.baseBits n a) (extended cfg.baseBits n b) =
        some (if decide (a &&& Machine.baseMask cfg < b &&& Machine.baseMask cfg) then 1 else 0) := by
    rw [Special.eval?, target.ult_extended]
  have signed (a b : UInt64) :
      Special.slt.eval? 0 (extended cfg.baseBits n a) (extended cfg.baseBits n b) =
        some (if decide (Lane.signExtend cfg.baseBits (a &&& Machine.baseMask cfg) <
          Lane.signExtend cfg.baseBits (b &&& Machine.baseMask cfg)) then 1 else 0) := by
    rw [Special.eval?, target.slt_extended]
  cases c with
  | ltu =>
    obtain rfl := Option.some.inj found
    exact ⟨_, unsigned x y, by simp [Cond.holds]⟩
  | geu =>
    obtain rfl := Option.some.inj found
    exact ⟨_, unsigned x y, by simp [Cond.holds, ← UInt64.not_lt]⟩
  | gtu =>
    obtain rfl := Option.some.inj found
    exact ⟨_, unsigned y x, by simp [Cond.holds]⟩
  | leu =>
    obtain rfl := Option.some.inj found
    exact ⟨_, unsigned y x, by simp [Cond.holds, ← UInt64.not_lt]⟩
  | lts =>
    obtain rfl := Option.some.inj found
    exact ⟨_, signed x y, by simp [Cond.holds]⟩
  | ges =>
    obtain rfl := Option.some.inj found
    exact ⟨_, signed x y, by simp [Cond.holds, ← Int64.not_lt]⟩
  | gts =>
    obtain rfl := Option.some.inj found
    exact ⟨_, signed y x, by simp [Cond.holds]⟩
  | les =>
    obtain rfl := Option.some.inj found
    exact ⟨_, signed y x, by simp [Cond.holds, ← Int64.not_lt]⟩
  | _ => cases found

end BaseTarget

end LaneAsm.Msa
