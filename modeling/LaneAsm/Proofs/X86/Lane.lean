import LaneAsm.Proofs.LaneValue
import LaneAsm.Proofs.X86.State

/-!
Lanes in general registers. A lane is loaded extended to at least 32 bits (`extend`), so that
comparisons and shifts of words see its number; the low bits of what the words give are then the
lane that the operation gives (`run_scalar`, `exec_shiftLane`). Both sides are brought to numbers
modulo the range of a lane (`Lane.Spells`).
-/
namespace LaneAsm

namespace Lane

/-- The low bits of a word spell a number, up to the range of a lane. -/
def Spells (e : Elem) (x : UInt64) (k : Int) : Prop := (x.toNat : Int) % 2 ^ e.bits = k % 2 ^ e.bits

theorem toNat_toUInt64_emod (i : Int64) : (i.toUInt64.toNat : Int) % 2 ^ 64 = i.toInt % 2 ^ 64 := by
  have word : i.toInt = (i.toUInt64.toNat : Int).bmod (2 ^ 64) := by
    rw [← toInt_toInt64, Int64.toInt64_toUInt64]
  rw [word]
  exact Int.bmod_emod.symm

variable {e : Elem} {x y : UInt64} {k l : Int}

theorem spells_self (e : Elem) (x : UInt64) : Spells e x x.toNat := rfl

theorem spells_value (e : Elem) (x : UInt64) : Spells e x (value e x) := by
  unfold Spells value
  split
  · have := Int.bmod_emod (x := x.toNat) (m := 2 ^ e.bits)
    simpa using this.symm
  · exact (Int.emod_emod_of_dvd _ (Int.dvd_refl _)).symm

theorem Spells.trans (first : Spells e x k) (same : k % 2 ^ e.bits = l % 2 ^ e.bits) :
    Spells e x l := Eq.trans first same

section
variable (valid : e.valid = true)
include valid

theorem dvd_range : (2 : Int) ^ e.bits ∣ 2 ^ 64 := by
  rcases Elem.bits_of_valid valid with bits | bits | bits | bits <;> rw [bits] <;> decide

/-- A word of 64 bits that spells a number spells it as a lane. -/
theorem spells_of_word (same : (x.toNat : Int) % 2 ^ 64 = k % 2 ^ 64) : Spells e x k := by
  rw [Spells, ← Int.emod_emod_of_dvd _ (dvd_range valid), same,
    Int.emod_emod_of_dvd _ (dvd_range valid)]

theorem Spells.add (first : Spells e x k) (second : Spells e y l) : Spells e (x + y) (k + l) := by
  refine (spells_of_word valid (k := x.toNat + y.toNat) ?_).trans ?_
  · rw [UInt64.toNat_add]
    omega
  · rw [Int.add_emod, first, second, ← Int.add_emod]

theorem Spells.sub (first : Spells e x k) (second : Spells e y l) : Spells e (x - y) (k - l) := by
  refine (spells_of_word valid (k := x.toNat - y.toNat) ?_).trans ?_
  · have := y.toNat_lt
    rw [UInt64.toNat_sub]
    omega
  · rw [Int.sub_emod, first, second, ← Int.sub_emod]

theorem Spells.mul (first : Spells e x k) (second : Spells e y l) : Spells e (x * y) (k * l) := by
  refine (spells_of_word valid (k := x.toNat * y.toNat) ?_).trans ?_
  · rw [UInt64.toNat_mul]
    simp
  · rw [Int.mul_emod, first, second, ← Int.mul_emod]

theorem Spells.and_mask (spelled : Spells e x k) : Spells e (x &&& e.mask) k := by
  have cut : ((x &&& e.mask).toNat : Int) = (x.toNat : Int) % 2 ^ e.bits := by
    rw [Elem.toNat_and_mask valid]
    simp
  rw [Spells, cut, Int.emod_emod_of_dvd _ (Int.dvd_refl _)]
  exact spelled

/-- Words that spell one number have the same bytes as lanes. -/
theorem littleEndian_of_spells (first : Spells e x k) (second : Spells e y k) :
    littleEndian e.bytes x = littleEndian e.bytes y := by
  apply littleEndian_congr (Elem.bytes_le valid)
  have same := Eq.trans first second.symm
  rw [Elem.range_of_valid valid]
  exact_mod_cast same

/-! ## What lanes give, as numbers -/

/-- Only the bits of a count below the lane width matter. -/
theorem toNat_count (n : UInt64) :
    (n &&& e.mask &&& (UInt64.ofNat e.bits - 1)).toNat = n.toNat % e.bits := by
  rw [UInt64.toNat_and, Elem.toNat_and_mask valid]
  rcases Elem.bits_of_valid valid with bits | bits | bits | bits <;> rw [bits]
  · exact (Nat.and_two_pow_sub_one_eq_mod _ 3).trans (by omega)
  · exact (Nat.and_two_pow_sub_one_eq_mod _ 4).trans (by omega)
  · exact (Nat.and_two_pow_sub_one_eq_mod _ 5).trans (by omega)
  · exact (Nat.and_two_pow_sub_one_eq_mod _ 6).trans (by omega)

theorem count_lt (n : UInt64) :
    (n &&& e.mask &&& (UInt64.ofNat e.bits - 1)).toNat < 64 := by
  rw [toNat_count valid]
  rcases Elem.bits_of_valid valid with bits | bits | bits | bits <;> rw [bits] <;> omega

variable (whole : e.isFloat = false)
include whole

theorem spells_add (x y : UInt64) : Spells e (eval .add e x y) (x.toNat + y.toNat) := by
  have sum := ((spells_self e x).and_mask valid).add valid ((spells_self e y).and_mask valid)
  simp only [eval, whole, integer, signedLane?, unsignedLane?, ite_self]
  exact sum.and_mask valid

theorem spells_sub (x y : UInt64) : Spells e (eval .sub e x y) (x.toNat - y.toNat) := by
  have difference := ((spells_self e x).and_mask valid).sub valid ((spells_self e y).and_mask valid)
  simp only [eval, whole, integer, signedLane?, unsignedLane?, ite_self]
  exact difference.and_mask valid

theorem spells_mul (x y : UInt64) : Spells e (eval .mul e x y) (x.toNat * y.toNat) := by
  have product := ((spells_self e x).and_mask valid).mul valid ((spells_self e y).and_mask valid)
  simp only [eval, whole, integer, signedLane?, unsignedLane?, ite_self]
  exact product.and_mask valid

theorem spells_min (x y : UInt64) : Spells e (eval .min e x y) (min (value e x) (value e y)) := by
  have least : value e (eval .min e x y) = min (value e x) (value e y) := by
    rw [eval, if_neg (by simp [whole]), value_min valid]
  exact least ▸ spells_value e _

theorem spells_max (x y : UInt64) : Spells e (eval .max e x y) (max (value e x) (value e y)) := by
  have greatest : value e (eval .max e x y) = max (value e x) (value e y) := by
    rw [eval, if_neg (by simp [whole]), value_max valid]
  exact greatest ▸ spells_value e _

theorem spells_compare {c : Op} (compare : c.isCompare = true) (x y : UInt64) :
    Spells e (eval c e x y) (if relates c (value e x) (value e y) then -1 else 0) := by
  rw [eval_compare valid whole compare, flag]
  split
  · rw [Spells, Elem.toNat_mask valid]
    rcases Elem.bits_of_valid valid with bits | bits | bits | bits <;> rw [bits] <;> decide
  · rfl

/-- Shifts take their count modulo the lane width. -/
theorem eval_shift_congr {op : Op} (shift : op = .shl ∨ op = .shr) {n m : UInt64}
    (same : n.toNat % e.bits = m.toNat % e.bits) (x : UInt64) : eval op e x n = eval op e x m := by
  have counts : n &&& e.mask &&& (UInt64.ofNat e.bits - 1) =
      m &&& e.mask &&& (UInt64.ofNat e.bits - 1) := by
    rw [← UInt64.toNat_inj, toNat_count valid, toNat_count valid, same]
  rcases shift with rfl | rfl
  · simp only [eval, whole, integer, signedLane?, unsignedLane?, ite_self, counts,
      Bool.false_eq_true, ↓reduceIte]
  · simp only [eval, whole, integer, signedLane?, unsignedLane?, counts, Bool.false_eq_true,
      ↓reduceIte]

theorem spells_left {op : Op} (left : op = .shl ∨ op = .svl) (x n : UInt64) :
    Spells e (eval op e x n) (x.toNat * 2 ^ (n.toNat % e.bits)) := by
  have moved (y : UInt64) : Spells e (shiftLeft y (n &&& e.mask &&& (UInt64.ofNat e.bits - 1)))
      (y.toNat * 2 ^ (n.toNat % e.bits)) := by
    have small := count_lt valid n
    rw [shiftLeft, if_pos (UInt64.lt_iff_toNat_lt.mpr small)]
    refine spells_of_word valid ?_
    rw [UInt64.toNat_shiftLeft, Nat.mod_eq_of_lt small, toNat_count valid, Nat.shiftLeft_eq]
    simp
  have start := (moved (x &&& e.mask)).and_mask valid
  have result : eval op e x n =
      shiftLeft (x &&& e.mask) (n &&& e.mask &&& (UInt64.ofNat e.bits - 1)) &&& e.mask := by
    rcases left with rfl | rfl <;>
      simp only [eval, whole, integer, signedLane?, unsignedLane?, ite_self] <;> rfl
  rw [result]
  refine start.trans ?_
  rw [Int.mul_emod, (spells_self e x).and_mask valid, ← Int.mul_emod]

theorem spells_right {op : Op} (right : op = .shr ∨ op = .svr) (x n : UInt64) :
    Spells e (eval op e x n) (value e x / 2 ^ (n.toNat % e.bits)) := by
  have small := count_lt valid n
  by_cases kind : e.kind = .signed
  · have result : eval op e x n = (shiftRightSigned (signExtend e.bits (x &&& e.mask))
        (n &&& e.mask &&& (UInt64.ofNat e.bits - 1))).toUInt64 &&& e.mask := by
      rcases right with rfl | rfl <;>
        simp only [eval, whole, integer, signedLane?, kind, ↓reduceIte] <;> rfl
    rw [result]
    refine Spells.and_mask valid (spells_of_word valid ?_)
    rw [← toNat_count valid, ← value_of_signed valid kind, ← toInt_shiftRightSigned _ _ small]
    exact toNat_toUInt64_emod _
  · have result : eval op e x n = shiftRight (x &&& e.mask)
        (n &&& e.mask &&& (UInt64.ofNat e.bits - 1)) := by
      rcases right with rfl | rfl <;>
        simp only [eval, whole, integer, unsignedLane?, kind, ↓reduceIte] <;> rfl
    rw [result, shiftRight, if_pos (UInt64.lt_iff_toNat_lt.mpr small), Spells,
      UInt64.toNat_shiftRight, Nat.mod_eq_of_lt small, toNat_count valid,
      Nat.shiftRight_eq_div_pow, ← value_of_unsigned valid kind]
    simp

end

end Lane

namespace X86

open Lane

/-! ## Words -/

theorem toNat_cut {w : Nat} (narrow : w ≤ 64) (x : UInt64) : (cut w x).toNat = x.toNat % 2 ^ w := by
  have bound : x.toNat % 2 ^ w < 2 ^ 64 :=
    Nat.lt_of_lt_of_le (Nat.mod_lt _ (Nat.two_pow_pos w)) (Nat.pow_le_pow_right (by decide) narrow)
  rw [cut, UInt64.toNat_ofNat', Nat.mod_eq_of_lt bound]

theorem spells_cut {e : Elem} {w : Nat} (long : e.bits ≤ w) (narrow : w ≤ 64) {x : UInt64} {k : Int}
    (spelled : Spells e x k) : Spells e (cut w x) k := by
  have range : (2 : Int) ^ e.bits ∣ 2 ^ w :=
    ⟨2 ^ (w - e.bits), by rw [← Int.pow_add]; congr 1; omega⟩
  rw [Spells, toNat_cut narrow, Int.natCast_emod]
  simp only [Int.natCast_pow, Int.cast_ofNat_Int]
  rw [Int.emod_emod_of_dvd _ range]
  exact spelled

theorem signed_range {w : Nat} (word : w = 32 ∨ w = 64) (x : UInt64) :
    -2 ^ (w - 1) ≤ signed w x ∧ signed w x < 2 ^ (w - 1) := by
  rcases word with rfl | rfl <;> simp only [signed, Int.bmod_def] <;> omega

/-- The signed difference of two words is right up to the range of words. -/
theorem signed_sub {w : Nat} (word : w = 32 ∨ w = 64) (x y : UInt64) :
    ∃ q, signed w x - signed w y = signed w (x - y) + q * 2 ^ w := by
  have := y.toNat_lt
  have difference : ((x - y).toNat : Int) % 2 ^ 64 = (x.toNat - y.toNat) % 2 ^ 64 := by
    rw [UInt64.toNat_sub]
    omega
  refine ⟨(signed w x - signed w y - signed w (x - y)) / 2 ^ w, ?_⟩
  rcases word with rfl | rfl <;> simp only [signed, Int.bmod_def] at * <;> omega

theorem signed_inj {w : Nat} (word : w = 32 ∨ w = 64) {x y : UInt64} :
    signed w x = signed w y ↔ x.toNat % 2 ^ w = y.toNat % 2 ^ w := by
  rcases word with rfl | rfl <;> simp only [signed, Int.bmod_def] <;> omega

namespace Flags

variable {w : Nat} (word : w = 32 ∨ w = 64) (x y : UInt64)
include word

theorem cut_lt : cut w x < cut w y ↔ x.toNat % 2 ^ w < y.toNat % 2 ^ w := by
  have narrow : w ≤ 64 := by omega
  rw [UInt64.lt_iff_toNat_lt, toNat_cut narrow, toNat_cut narrow]

theorem cut_eq : cut w x = cut w y ↔ x.toNat % 2 ^ w = y.toNat % 2 ^ w := by
  have narrow : w ≤ 64 := by omega
  rw [← UInt64.toNat_inj, toNat_cut narrow, toNat_cut narrow]

theorem below : (compare w x y).holds? 0x2 = some (decide (x.toNat % 2 ^ w < y.toNat % 2 ^ w)) := by
  simp only [holds?, compare, cut_lt word]

theorem equal : (compare w x y).holds? 0x4 = some (decide (x.toNat % 2 ^ w = y.toNat % 2 ^ w)) := by
  simp only [holds?, compare, cut_eq word]

theorem above : (compare w x y).holds? 0x7 = some (decide (y.toNat % 2 ^ w < x.toNat % 2 ^ w)) := by
  simp only [holds?, compare, cut_lt word, cut_eq word]
  congr 1
  rw [Bool.eq_iff_iff]
  simp
  omega

theorem less : (compare w x y).holds? 0xC = some (decide (signed w x < signed w y)) := by
  obtain ⟨q, difference⟩ := signed_sub word x y
  have := signed_range word x
  have := signed_range word y
  have := signed_range word (x - y)
  simp only [holds?, compare]
  congr 1
  rw [Bool.eq_iff_iff]
  simp only [bne_iff_ne, ne_eq, decide_eq_decide, decide_eq_true_eq]
  rcases word with rfl | rfl <;> omega

theorem greater : (compare w x y).holds? 0xF = some (decide (signed w y < signed w x)) := by
  obtain ⟨q, difference⟩ := signed_sub word x y
  have := signed_range word x
  have := signed_range word y
  have := signed_range word (x - y)
  simp only [holds?, compare, cut_eq word, ← signed_inj word]
  congr 1
  rw [Bool.eq_iff_iff]
  simp only [Bool.and_eq_true, Bool.not_eq_eq_eq_not, Bool.not_true, decide_eq_false_iff_not,
    beq_iff_eq, ne_eq, decide_eq_decide, decide_eq_true_eq]
  rcases word with rfl | rfl <;> omega

end Flags

/-! ## Extended lanes -/

/-- The bits of the words that a lane is computed in. -/
def wordBits (e : Elem) : Nat := if e.bits == 64 then 64 else 32

/-- A lane as it is loaded. -/
def extend (e : Elem) (x : UInt64) : UInt64 :=
  if e.bits < 32 ∧ e.isSigned = true then cut 32 (UInt64.ofInt (signed e.bits x)) else x

theorem wordBits_eq (e : Elem) : wordBits e = 32 ∨ wordBits e = 64 := by
  unfold wordBits
  split
  · exact .inr rfl
  · exact .inl rfl

theorem toNat_ofInt_emod (i : Int) : ((UInt64.ofInt i).toNat : Int) % 2 ^ 64 = i % 2 ^ 64 := by
  have := Int.emod_nonneg i (show (2 : Int) ^ 64 ≠ 0 by decide)
  rw [UInt64.ofInt, UInt64.toNat_ofNat']
  omega

section
variable {e : Elem} (valid : e.valid = true)
include valid

theorem bits_le_wordBits : e.bits ≤ wordBits e := by
  rcases Elem.bits_of_valid valid with bits | bits | bits | bits <;> simp [wordBits, bits]

theorem spells_ofInt (k : Int) : Spells e (UInt64.ofInt k) k :=
  spells_of_word valid (toNat_ofInt_emod k)

omit valid in
/-- Words of 32 bits keep the signed numbers of their range. -/
theorem signed_cut_ofInt {k : Int} (least : -2 ^ 31 ≤ k) (greatest : k < 2 ^ 31) :
    signed 32 (cut 32 (UInt64.ofInt k)) = k := by
  have spelled : Spells .s32 (cut 32 (UInt64.ofInt k)) k :=
    spells_cut (by decide) (by decide) (spells_ofInt rfl k)
  have range : ((cut 32 (UInt64.ofInt k)).toNat : Int) % 2 ^ 32 = k % 2 ^ 32 := spelled
  rw [signed, Int.bmod_def]
  omega

theorem spells_word {x : UInt64} {k : Int} (spelled : Spells e x k) :
    Spells e (cut (wordBits e) x) k :=
  spells_cut (bits_le_wordBits valid) (by have := wordBits_eq e; omega) spelled

theorem spells_extend (x : UInt64) : Spells e (extend e x) x.toNat := by
  unfold extend
  split
  · next narrow =>
    refine spells_cut (by omega) (by decide) ((spells_ofInt valid _).trans ?_)
    have := Int.bmod_emod (x := x.toNat) (m := 2 ^ e.bits)
    simpa [signed] using this
  · rfl

/-- Only the bits of a lane count where a shift takes its count. -/
theorem toNat_extend_mod (x : UInt64) : (extend e x).toNat % e.bits = x.toNat % e.bits := by
  have same : ((extend e x).toNat : Int) % 2 ^ e.bits = x.toNat % 2 ^ e.bits :=
    spells_extend valid x
  rcases Elem.bits_of_valid valid with bits | bits | bits | bits <;> rw [bits] at same ⊢ <;> omega

variable {x y : UInt64}

/-- The signed number of an extended lane is that of the lane. -/
theorem signed_extend (kind : e.isSigned = true) :
    signed (wordBits e) (extend e x) = value e x := by
  have kind' : e.kind = .signed := by simpa [Elem.isSigned] using kind
  have number : value e x = signed e.bits x := if_pos kind'
  rw [number]
  by_cases narrow : e.bits < 32
  · have word : wordBits e = 32 := if_neg (by simp; omega)
    have range : -2 ^ 31 ≤ signed e.bits x ∧ signed e.bits x < 2 ^ 31 := by
      rw [signed, Int.bmod_def]
      rcases Elem.bits_of_valid valid with bits | bits | bits | bits <;> rw [bits] <;> omega
    rw [extend, if_pos ⟨narrow, kind⟩, word, signed_cut_ofInt range.1 range.2]
  · have word : wordBits e = e.bits := by
      rcases Elem.bits_of_valid valid with bits | bits | bits | bits <;>
        simp [wordBits, bits] <;> omega
    rw [extend, if_neg fun both => narrow both.1, word]

theorem toNat_extend (kind : e.isSigned = false) (lane : x.toNat < 2 ^ e.bits) :
    (((extend e x).toNat % 2 ^ wordBits e : Nat) : Int) = value e x := by
  have kind' : e.kind ≠ .signed := by simpa [Elem.isSigned] using kind
  rcases Elem.bits_of_valid valid with bits | bits | bits | bits <;>
    simp only [bits] at lane <;>
    simp [extend, wordBits, value, bits, kind, kind'] <;> omega

section
variable (first : x.toNat < 2 ^ e.bits) (second : y.toNat < 2 ^ e.bits)
include first second

theorem holds_greater : (Flags.compare (wordBits e) (extend e x) (extend e y)).holds?
    (if e.isSigned then 0xF else 0x7) = some (decide (value e y < value e x)) := by
  cases kind : e.isSigned with
  | true =>
    simp only [Flags.greater (wordBits_eq e), signed_extend valid kind, ↓reduceIte]
  | false =>
    simp only [Flags.above (wordBits_eq e), ← toNat_extend valid kind first,
      ← toNat_extend valid kind second, Int.ofNat_lt, Bool.false_eq_true, ↓reduceIte]

theorem holds_less : (Flags.compare (wordBits e) (extend e x) (extend e y)).holds?
    (if e.isSigned then 0xC else 0x2) = some (decide (value e x < value e y)) := by
  cases kind : e.isSigned with
  | true =>
    simp only [Flags.less (wordBits_eq e), signed_extend valid kind, ↓reduceIte]
  | false =>
    simp only [Flags.below (wordBits_eq e), ← toNat_extend valid kind first,
      ← toNat_extend valid kind second, Int.ofNat_lt, Bool.false_eq_true, ↓reduceIte]

theorem holds_equal : (Flags.compare (wordBits e) (extend e x) (extend e y)).holds? 0x4 =
    some (decide (value e x = value e y)) := by
  rw [Flags.equal (wordBits_eq e)]
  cases kind : e.isSigned with
  | true =>
    rw [← signed_extend valid kind, ← signed_extend valid kind]
    simp only [signed_inj (wordBits_eq e)]
  | false =>
    simp only [← toNat_extend valid kind first, ← toNat_extend valid kind second, Int.ofNat_inj]

end

end

end X86

end LaneAsm
