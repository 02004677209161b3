import LaneAsm.Proofs.Msa.BaseSimulation
import LaneAsm.Proofs.Patching
import Mathlib.Data.Int.ModEq

/-!
The windows of operands are exact. The checks look for bits outside a mask; as the bits of every mask
are consecutive, a value passes iff it is a multiple of the lowest one between zero and the mask
(`insideMask_iff`). A reference is moved by a sum of 64 bits, which is refused whenever it differs from
the exact one (`Mem.offset_eq_ok_iff`).
-/
namespace LaneAsm

/-! ## Masks of consecutive bits -/

/-- A number has no bit but the `n` ones from bit `k` on iff it is a multiple of the lowest and not
above all of them. -/
theorem and_consecutive_eq_self_iff {v n k : Nat} :
    v &&& (2 ^ n - 1) <<< k = v ↔ v ≤ (2 ^ n - 1) <<< k ∧ 2 ^ k ∣ v := by
  constructor
  · intro kept
    have below : v &&& (2 ^ n - 1) <<< k ≤ (2 ^ n - 1) <<< k := Nat.and_le_right
    have low : v % 2 ^ k = 0 := by
      rw [← kept, Nat.and_mod_two_pow, Nat.shiftLeft_eq, Nat.mul_mod_left, Nat.and_zero]
    exact ⟨kept ▸ below, Nat.dvd_of_mod_eq_zero low⟩
  · -- a multiple of the lowest bit is a quotient shifted there, and the quotient has `n` bits
    rintro ⟨most, q, rfl⟩
    rw [Nat.shiftLeft_eq, Nat.mul_comm] at most
    have quotient := Nat.le_of_mul_le_mul_right most (Nat.two_pow_pos k)
    have small : q < 2 ^ n := by
      have := Nat.two_pow_pos n
      omega
    rw [Nat.mul_comm, ← Nat.shiftLeft_eq, ← Nat.shiftLeft_and_distrib,
      Nat.and_two_pow_sub_one_of_lt_two_pow small]

variable {v : Int}

/-- The converse of `and_eq_self_of_insideMask`. -/
theorem insideMask_of_and_eq_self {mask : UInt64} (least : 0 ≤ v) (word : v < 2 ^ 63)
    (kept : v.toNat &&& mask.toNat = v.toNat) : insideMask mask v = true := by
  have number : (UInt64.ofInt v).toNat = v.toNat := by
    have wrapped := toNat_ofInt v
    omega
  have kept : UInt64.ofInt v &&& mask = UInt64.ofInt v := by
    apply UInt64.toNat_inj.mp
    rw [UInt64.toNat_and, number, kept]
  have none : UInt64.ofInt v &&& ~~~mask = 0 := by
    apply UInt64.toBitVec_inj.mp
    ext i below
    have inside := congrArg (fun x : UInt64 => x.toBitVec[i]) kept
    simpa using inside
  simp only [insideMask, least, none, decide_true, beq_self_eq_true, Bool.and_self]

theorem insideMask_iff {mask : UInt64} {n k : Nat} (bits : mask.toNat = (2 ^ n - 1) <<< k)
    (word : v < 2 ^ 63) :
    insideMask mask v = true ↔ 0 ≤ v ∧ v ≤ mask.toNat ∧ ((2 ^ k : Nat) : Int) ∣ v := by
  constructor
  · intro inside
    have least := nonneg_of_insideMask inside
    have kept := and_eq_self_of_insideMask word inside
    rw [bits, and_consecutive_eq_self_iff] at kept
    refine ⟨least, le_of_insideMask word inside, ?_⟩
    rw [← Int.toNat_of_nonneg least]
    exact Int.natCast_dvd_natCast.mpr kept.2
  · rintro ⟨least, most, dvd⟩
    apply insideMask_of_and_eq_self least word
    rw [← Int.toNat_of_nonneg least, Int.natCast_dvd_natCast] at dvd
    rw [bits, and_consecutive_eq_self_iff]
    exact ⟨by omega, dvd⟩

theorem DispClass.consecutive {c : DispClass} {mask : UInt64} (found : c.mask? = some mask) :
    ∃ n, mask.toNat = (2 ^ n - 1) <<< 2 := by
  cases c with
  | dp => cases found; exact ⟨10, rfl⟩
  | de => cases found; exact ⟨11, rfl⟩
  | df => cases found; exact ⟨12, rfl⟩
  | dg => cases found; exact ⟨13, rfl⟩
  | dh => cases found; exact ⟨14, rfl⟩
  | dv => cases found; exact ⟨29, rfl⟩
  | other code => cases found

theorem ImmClass.consecutive {c : ImmClass} {mask : UInt64} (found : c.mask? = some mask) :
    ∃ n, mask.toNat = (2 ^ n - 1) <<< 0 := by
  cases c with
  | ic => cases found; exact ⟨7, rfl⟩
  | ib => cases found; exact ⟨8, rfl⟩
  | im => cases found; exact ⟨12, rfl⟩
  | ig => cases found; exact ⟨15, rfl⟩
  | ih => cases found; exact ⟨16, rfl⟩
  | iv => cases found; exact ⟨31, rfl⟩
  | iw => cases found; exact ⟨32, rfl⟩
  | other code => cases found

/-! ## Displacements and immediates -/

theorem ite_fail_eq_ok_iff {p : Prop} [Decidable p] {cause : Cause} :
    (if p then .ok () else Error.fail cause : Except Error Unit) = .ok () ↔ p := by
  split
  · next holds => simp only [holds]
  · next fails => simp only [fails, Error.fail, reduceCtorEq]

theorem Disp.check_eq_ok_iff {d : Disp} {mask : UInt64} (found : d.kind.mask? = some mask)
    (word : d.value < 2 ^ 63) :
    d.check = .ok () ↔ 0 ≤ d.value ∧ d.value ≤ mask.toNat ∧ 4 ∣ d.value := by
  obtain ⟨n, bits⟩ := DispClass.consecutive found
  simp only [check, found]
  rw [ite_fail_eq_ok_iff, insideMask_iff bits word]
  rfl

/-- The widest window of displacements. -/
theorem Disp.check_dv_iff {n : Int} (word : n < 2 ^ 63) :
    (⟨n, .dv⟩ : Disp).check = .ok () ↔ 0 ≤ n ∧ n ≤ 0x7FFFFFFC ∧ 4 ∣ n :=
  check_eq_ok_iff (d := ⟨n, .dv⟩) rfl word

theorem Imm.check_eq_ok_iff {i : Imm} {mask : UInt64} (found : i.kind.mask? = some mask)
    (word : i.value < 2 ^ 63) : i.check = .ok () ↔ 0 ≤ i.value ∧ i.value ≤ mask.toNat := by
  obtain ⟨n, bits⟩ := ImmClass.consecutive found
  have unit : ((2 ^ 0 : Nat) : Int) ∣ i.value := one_dvd _
  simp only [check, found]
  rw [ite_fail_eq_ok_iff, insideMask_iff bits word]
  simp only [unit, and_true]

/-- Base instructions see the pattern of an immediate: the value, up to a multiple of `2 ^ 32`. -/
theorem Imm.signed_modEq (i : Imm) : i.signed ≡ i.value [ZMOD 2 ^ 32] := by
  unfold signed
  split
  · exact Int.bmod_emod
  · exact Int.ModEq.refl _

/-! ## Moving references -/

namespace Mem

variable {m m' : Mem} {a b : Int}

theorem offset_eq_ok_iff_check :
    m.offset a = .ok m' ↔
      (⟨wrap64 (m.disp.value + a), .dv⟩ : Disp).check = .ok () ∧
        m' = { m with disp := ⟨wrap64 (m.disp.value + a), .dv⟩ } := by
  simp only [offset]
  split
  · next passed => simp only [passed, Except.ok.injEq, true_and, eq_comm]
  · next refused => simp only [refused, reduceCtorEq, false_and]

/-- A reference can be moved iff the exact sum lies in the widest window. -/
theorem offset_eq_ok_iff (passed : m.disp.check = .ok ()) (word : m.disp.value < 2 ^ 63)
    (least : -2 ^ 63 ≤ a) (most : a < 2 ^ 63) :
    m.offset a = .ok m' ↔
      (0 ≤ m.disp.value + a ∧ m.disp.value + a ≤ 0x7FFFFFFC ∧ 4 ∣ m.disp.value + a) ∧
        m' = { m with disp := ⟨m.disp.value + a, .dv⟩ } := by
  obtain ⟨-, nonneg, below⟩ := Disp.inRange_of_check word passed
  have short : wrap64 (m.disp.value + a) < 2 ^ 63 := Int.bmod_lt (by decide)
  rw [offset_eq_ok_iff_check, Disp.check_dv_iff short]
  by_cases fits : m.disp.value + a < 2 ^ 63
  · rw [Branching.wrap64_eq_self (by omega) fits]
  · -- one term is a displacement, so the sum has wrapped around to a negative number
    have wrapped : wrap64 (m.disp.value + a) < 0 := by
      rw [wrap64, Int.bmod_def]
      omega
    constructor
    · rintro ⟨⟨nonneg', -⟩, -⟩
      exact absurd nonneg' (Int.not_le.2 wrapped)
    · rintro ⟨⟨-, below', -⟩, -⟩
      omega

/-- Moving a reference twice is moving it once, by a sum that does not wrap around. -/
theorem offset_offset {m₁ m₂ : Mem} (passed : m.disp.check = .ok ()) (word : m.disp.value < 2 ^ 63)
    (least : -2 ^ 63 ≤ a) (most : a < 2 ^ 63) (least' : -2 ^ 63 ≤ b) (most' : b < 2 ^ 63)
    (first : m.offset a = .ok m₁) (second : m₁.offset b = .ok m₂) :
    m.offset (wrap64 (a + b)) = .ok m₂ := by
  obtain ⟨-, nonneg, below⟩ := Disp.inRange_of_check word passed
  obtain ⟨⟨nonneg₁, below₁, dvd₁⟩, rfl⟩ := (offset_eq_ok_iff passed word least most).1 first
  have word₁ : m.disp.value + a < 2 ^ 63 := by omega
  have passed₁ : (⟨m.disp.value + a, .dv⟩ : Disp).check = .ok () :=
    (Disp.check_dv_iff word₁).2 ⟨nonneg₁, below₁, dvd₁⟩
  obtain ⟨⟨nonneg₂, below₂, dvd₂⟩, rfl⟩ := (offset_eq_ok_iff passed₁ word₁ least' most').1 second
  simp only [Int.add_assoc] at nonneg₂ below₂ dvd₂ ⊢
  rw [Branching.wrap64_eq_self (by omega) (by omega),
    offset_eq_ok_iff passed word (by omega) (by omega)]
  exact ⟨⟨nonneg₂, below₂, dvd₂⟩, rfl⟩

end Mem

/-- The windows of operands are exact, for values and distances of 64 bits. Of the classes with a mask,
displacements are the multiples of four from zero to the mask, and immediates all numbers from zero to
the mask, which base instructions see as signed numbers of 32 bits with the same pattern. A reference
with a displacement in its window can be moved iff the exact sum is a displacement of the widest
window. The sum is then its displacement, nothing else changes, and distances add up. -/
theorem windows_exact (v a b : Int64) :
    (∀ (c : DispClass) (mask : UInt64), c.mask? = some mask →
      ((⟨v.toInt, c⟩ : Disp).check = .ok () ↔
        0 ≤ v.toInt ∧ v.toInt ≤ mask.toNat ∧ 4 ∣ v.toInt)) ∧
    (∀ (c : ImmClass) (mask : UInt64), c.mask? = some mask →
      let i : Imm := ⟨v.toInt, c⟩
      (i.check = .ok () ↔ 0 ≤ v.toInt ∧ v.toInt ≤ mask.toNat) ∧
      (i.check = .ok () →
        -2 ^ 31 ≤ i.signed ∧ i.signed < 2 ^ 31 ∧ i.signed ≡ v.toInt [ZMOD 2 ^ 32])) ∧
    (∀ m : Mem, m.disp.value = v.toInt → m.disp.check = .ok () →
      (∀ m', m.offset a.toInt = .ok m' ↔
        (0 ≤ v.toInt + a.toInt ∧ v.toInt + a.toInt ≤ 0x7FFFFFFC ∧ 4 ∣ v.toInt + a.toInt) ∧
          m' = { m with disp := ⟨v.toInt + a.toInt, .dv⟩ }) ∧
      ∀ m₁ m₂, m.offset a.toInt = .ok m₁ → m₁.offset b.toInt = .ok m₂ →
        m.offset (a + b).toInt = .ok m₂) := by
  have word := v.toInt_lt
  refine ⟨fun c mask found => Disp.check_eq_ok_iff found word, fun c mask found => ?_, ?_⟩
  · refine ⟨Imm.check_eq_ok_iff found word, fun passed => ?_⟩
    obtain ⟨least, most⟩ := Msa.signed_word passed word
    exact ⟨least, most, Imm.signed_modEq _⟩
  · intro m value passed
    rw [← value] at word ⊢
    refine ⟨fun m' => Mem.offset_eq_ok_iff passed word a.le_toInt a.toInt_lt, ?_⟩
    intro m₁ m₂ first second
    rw [Int64.toInt_add]
    exact Mem.offset_offset passed word a.le_toInt a.toInt_lt b.le_toInt b.toInt_lt first second

/-- A reference that goes up to the last displacement and from there down to the first. -/
theorem windows_exact_edges :
    let m : Mem := .plain (.base 3) ⟨0xFFC, .dp⟩
    let top : Mem := .plain (.base 3) ⟨0x7FFFFFFC, .dv⟩
    let bottom : Mem := .plain (.base 3) ⟨0, .dv⟩
    let i : Imm := ⟨0xFFC, .im⟩
    DispClass.dp.mask? = some 0xFFC ∧ m.disp.check = .ok () ∧
      m.offset 0x7FFFF000 = .ok top ∧ top.offset (-0x7FFFFFFC) = .ok bottom ∧
      m.offset (-0xFFC) = .ok bottom ∧
      ImmClass.im.mask? = some 0xFFF ∧ i.check = .ok () ∧ i.signed ≡ 0xFFC [ZMOD 2 ^ 32] := by
  intro m top bottom i
  obtain ⟨disp, imm, moved⟩ := windows_exact 0xFFC 0x7FFFF000 (-0x7FFFFFFC)
  have passed : m.disp.check = .ok () := (disp .dp 0xFFC rfl).2 (by decide)
  obtain ⟨window, signed⟩ := imm .im 0xFFF rfl
  have inside : i.check = .ok () := window.2 (by decide)
  obtain ⟨once, twice⟩ := moved m rfl passed
  have up : m.offset 0x7FFFF000 = .ok top := (once top).2 (by decide)
  have down : top.offset (-0x7FFFFFFC) = .ok bottom := by decide +kernel
  exact ⟨rfl, passed, up, down, twice top bottom up down, rfl, inside, (signed inside).2.2⟩

end LaneAsm
