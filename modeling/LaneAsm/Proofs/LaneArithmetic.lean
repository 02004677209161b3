import LaneAsm.Proofs.Shape
import LaneAsm.Proofs.X86.Lane

/-!
Integer lanes as arithmetic on numbers. Every operation gives the low bits of the exact result on the
numbers that the lanes stand for (`meaning?`), and looks at no other bits of its sources. The saturating
operations are the only ones for which words of 64 bits are too short: there a sum or a difference that
wraps is told by its sign, and lies beyond the end it is moved to (`toInt_addSigned`,
`toInt_subSigned`, `toNat_addUnsigned`).
-/
namespace LaneAsm

namespace Elem

/-- The least number of an integer lane. -/
def least (e : Elem) : Int := if e.kind = .signed then -2 ^ (e.bits - 1) else 0

/-- The greatest number of an integer lane. -/
def greatest (e : Elem) : Int := if e.kind = .signed then 2 ^ (e.bits - 1) - 1 else 2 ^ e.bits - 1

/-- A number moved to the nearer end of the lane's range if it lies outside. -/
def saturated (e : Elem) (k : Int) : Int := max e.least (min e.greatest k)

end Elem

namespace Lane

/-- The number of which an integer operation gives the low bits, from the numbers of its lanes and the
count `n`. Dividing by a power of two rounds down. -/
def meaning? (op : Op) (e : Elem) (a b : Int) (n : Nat) : Option Int :=
  match op with
  | .add => some (a + b)
  | .sub => some (a - b)
  | .mul => some (a * b)
  | .ads => some (e.saturated (a + b))
  | .sbs => some (e.saturated (a - b))
  | .min => some (min a b)
  | .max => some (max a b)
  | .shl | .svl => some (a * 2 ^ n)
  | .shr | .svr => some (a / 2 ^ n)
  | .ceq | .cne | .clt | .cle | .cgt | .cge =>
    some (if relates op a b then 2 ^ e.bits - 1 else 0)
  | _ => none

/-! ## Saturation -/

section
variable {lo hi : Int64} (ordered : lo.toInt ≤ hi.toInt)
include ordered

theorem toInt_clamp (x : Int64) :
    (clamp x lo hi).toInt = max lo.toInt (min hi.toInt x.toInt) := by
  unfold clamp
  simp only [Int64.lt_iff_toInt_lt]
  split
  · omega
  split
  · omega
  · omega

/-- A sum that wraps lies beyond the end that its sign tells. -/
theorem toInt_addSigned (a b : Int64) :
    (addSigned a b lo hi).toInt = max lo.toInt (min hi.toInt (a.toInt + b.toInt)) := by
  have sum : (a + b).toInt = (a.toInt + b.toInt).bmod (2 ^ 64) := Int64.toInt_add a b
  have := a.le_toInt
  have := a.toInt_lt
  have := b.le_toInt
  have := b.toInt_lt
  have := lo.le_toInt
  have := hi.toInt_lt
  have zero : (0 : Int64).toInt = 0 := rfl
  unfold addSigned
  simp only [Int64.le_iff_toInt_le, zero, sum, Bool.and_eq_true, beq_iff_eq, bne_iff_ne,
    decide_eq_decide, ne_eq]
  split
  · next wraps =>
    simp only [Int.bmod] at wraps
    split <;> omega
  · next fits =>
    rw [toInt_clamp ordered, sum]
    simp only [Int.bmod] at fits ⊢
    omega

/-- A difference that wraps lies beyond the end that its sign tells. -/
theorem toInt_subSigned (a b : Int64) :
    (subSigned a b lo hi).toInt = max lo.toInt (min hi.toInt (a.toInt - b.toInt)) := by
  have difference : (a - b).toInt = (a.toInt - b.toInt).bmod (2 ^ 64) := Int64.toInt_sub a b
  have := a.le_toInt
  have := a.toInt_lt
  have := b.le_toInt
  have := b.toInt_lt
  have := lo.le_toInt
  have := hi.toInt_lt
  have zero : (0 : Int64).toInt = 0 := rfl
  unfold subSigned
  simp only [Int64.le_iff_toInt_le, zero, difference, Bool.and_eq_true, bne_iff_ne,
    decide_eq_decide, ne_eq]
  split
  · next wraps =>
    simp only [Int.bmod] at wraps
    split <;> omega
  · next fits =>
    rw [toInt_clamp ordered, difference]
    simp only [Int.bmod] at fits ⊢
    omega

end

theorem toNat_addUnsigned (a b hi : UInt64) :
    (addUnsigned a b hi).toNat = min hi.toNat (a.toNat + b.toNat) := by
  have := a.toNat_lt
  have := b.toNat_lt
  have := hi.toNat_lt
  unfold addUnsigned
  simp only [UInt64.lt_iff_toNat_lt, UInt64.toNat_add]
  split
  · omega
  split
  · rw [UInt64.toNat_add]
    omega
  · omega

theorem toNat_subUnsigned (a b : UInt64) : (subUnsigned a b).toNat = a.toNat - b.toNat := by
  unfold subUnsigned
  split
  · next less =>
    rw [UInt64.lt_iff_toNat_lt] at less
    show 0 = _
    omega
  · next least => exact UInt64.toNat_sub_of_le _ _ (UInt64.not_lt.1 least)

section
variable {e : Elem} (valid : e.valid = true)
include valid

theorem toInt_lowest (signed : e.kind = .signed) : (lowest e.bits).toInt = e.least := by
  rw [Elem.least, if_pos signed]
  rcases Elem.bits_of_valid valid with bits | bits | bits | bits <;> rw [bits] <;> rfl

theorem toInt_highest (signed : e.kind = .signed) : (highest e.bits).toInt = e.greatest := by
  rw [Elem.greatest, if_pos signed]
  rcases Elem.bits_of_valid valid with bits | bits | bits | bits <;> rw [bits] <;> rfl

theorem least_le_greatest : e.least ≤ e.greatest := by
  unfold Elem.least Elem.greatest
  rcases Elem.bits_of_valid valid with bits | bits | bits | bits <;> rw [bits] <;> split <;> decide

/-- The greatest unsigned number is the mask. -/
theorem toNat_mask_eq (unsigned : e.kind ≠ .signed) : (e.mask.toNat : Int) = e.greatest := by
  rw [Elem.toNat_mask valid, Elem.greatest, if_neg unsigned]
  rcases Elem.bits_of_valid valid with bits | bits | bits | bits <;> rw [bits] <;> rfl

/-- What is known of a signed word holds of the lane that it is cut to. -/
theorem spells_toUInt64 {i : Int64} {k : Int} (number : i.toInt = k) :
    Spells e (i.toUInt64 &&& e.mask) k :=
  Spells.and_mask valid (spells_of_word valid (number ▸ toNat_toUInt64_emod i))

variable (whole : e.isFloat = false)
include whole

theorem spells_ads (x y : UInt64) :
    Spells e (eval .ads e x y) (e.saturated (value e x + value e y)) := by
  rw [eval, if_neg (by simp [whole]), Elem.saturated]
  by_cases kind : e.kind = .signed
  · simp only [integer, if_pos kind, signedLane?]
    have ends := least_le_greatest valid
    rw [← toInt_lowest valid kind, ← toInt_highest valid kind] at ends ⊢
    rw [← value_of_signed valid kind, ← value_of_signed valid kind]
    exact spells_toUInt64 valid (toInt_addSigned ends _ _)
  · simp only [integer, if_neg kind, unsignedLane?]
    have left := value_of_unsigned valid kind x
    have right := value_of_unsigned valid kind y
    have top := toNat_mask_eq valid kind
    have bottom : e.least = 0 := if_neg kind
    rw [Spells, toNat_addUnsigned]
    congr 1
    omega

theorem spells_sbs (x y : UInt64) :
    Spells e (eval .sbs e x y) (e.saturated (value e x - value e y)) := by
  rw [eval, if_neg (by simp [whole]), Elem.saturated]
  by_cases kind : e.kind = .signed
  · simp only [integer, if_pos kind, signedLane?]
    have ends := least_le_greatest valid
    rw [← toInt_lowest valid kind, ← toInt_highest valid kind] at ends ⊢
    rw [← value_of_signed valid kind, ← value_of_signed valid kind]
    exact spells_toUInt64 valid (toInt_subSigned ends _ _)
  · simp only [integer, if_neg kind, unsignedLane?]
    have left := value_of_unsigned valid kind x
    have right := value_of_unsigned valid kind y
    have top := toNat_mask_eq valid kind
    have below : (x &&& e.mask).toNat ≤ e.mask.toNat := UInt64.le_iff_toNat_le.1 (and_mask_le e x)
    have bottom : e.least = 0 := if_neg kind
    rw [Spells, toNat_subUnsigned]
    congr 1
    omega

/-! ## Every operation -/

/-- An integer operation looks at the bits of its lanes alone. -/
theorem eval_congr {a a' b b' : UInt64} (op : Op)
    (left : a'.toNat % 2 ^ e.bits = a.toNat % 2 ^ e.bits)
    (right : b'.toNat % 2 ^ e.bits = b.toNat % 2 ^ e.bits) : eval op e a' b' = eval op e a b := by
  have cut {x y : UInt64} (same : x.toNat % 2 ^ e.bits = y.toNat % 2 ^ e.bits) :
      x &&& e.mask = y &&& e.mask := by
    rw [← UInt64.toNat_inj, Elem.toNat_and_mask valid, Elem.toNat_and_mask valid, same]
  rw [eval, eval, if_neg (by simp [whole]), if_neg (by simp [whole])]
  simp only [integer, cut left, cut right]

theorem eval_lt (op : Op) (a b : UInt64) : (eval op e a b).toNat < 2 ^ e.bits := by
  have bounded := UInt64.le_iff_toNat_le.1 (integer_le_mask op e a b)
  have pos := Nat.two_pow_pos e.bits
  rw [Elem.toNat_mask valid] at bounded
  rw [eval, if_neg (by simp [whole])]
  omega

theorem spells_exact (op : Op) (a b : UInt64) {k : Int}
    (meant : meaning? op e (value e a) (value e b) (b.toNat % e.bits) = some k) :
    Spells e (eval op e a b) k := by
  have left : (a.toNat : Int) % 2 ^ e.bits = value e a % 2 ^ e.bits := spells_value e a
  have right : (b.toNat : Int) % 2 ^ e.bits = value e b % 2 ^ e.bits := spells_value e b
  cases op with
  | add =>
    obtain rfl := Option.some.inj meant
    exact (spells_add valid whole a b).trans (by rw [Int.add_emod, left, right, ← Int.add_emod])
  | sub =>
    obtain rfl := Option.some.inj meant
    exact (spells_sub valid whole a b).trans (by rw [Int.sub_emod, left, right, ← Int.sub_emod])
  | mul =>
    obtain rfl := Option.some.inj meant
    exact (spells_mul valid whole a b).trans (by rw [Int.mul_emod, left, right, ← Int.mul_emod])
  | ads =>
    obtain rfl := Option.some.inj meant
    exact spells_ads valid whole a b
  | sbs =>
    obtain rfl := Option.some.inj meant
    exact spells_sbs valid whole a b
  | min =>
    obtain rfl := Option.some.inj meant
    exact spells_min valid whole a b
  | max =>
    obtain rfl := Option.some.inj meant
    exact spells_max valid whole a b
  | shl =>
    obtain rfl := Option.some.inj meant
    exact (spells_left valid whole (.inl rfl) a b).trans (by rw [Int.mul_emod, left, ← Int.mul_emod])
  | svl =>
    obtain rfl := Option.some.inj meant
    exact (spells_left valid whole (.inr rfl) a b).trans (by rw [Int.mul_emod, left, ← Int.mul_emod])
  | shr =>
    obtain rfl := Option.some.inj meant
    exact spells_right valid whole (.inl rfl) a b
  | svr =>
    obtain rfl := Option.some.inj meant
    exact spells_right valid whole (.inr rfl) a b
  | ceq | cne | clt | cle | cgt | cge =>
    obtain rfl := Option.some.inj meant
    refine (spells_compare valid whole rfl a b).trans ?_
    split
    · exact (Int.sub_emod_left _ _).symm
    · rfl
  | _ => cases meant

end

/-- Integer lanes are exact. An operation looks at the low bits of its sources alone and gives a word
without other bits. That word is the exact number modulo the range of the lane: the sum, difference or
product of the numbers that the sources stand for, the sum or difference moved to the nearer end of the
range, the smaller or the greater, the first number times or divided by a power of two, or a mask that
says whether a relation holds. -/
theorem integer_lanes_exact {e : Elem} (valid : e.valid = true) (whole : e.isFloat = false) (op : Op)
    (a b : UInt64) :
    (∀ a' b' : UInt64, a'.toNat % 2 ^ e.bits = a.toNat % 2 ^ e.bits →
      b'.toNat % 2 ^ e.bits = b.toNat % 2 ^ e.bits → eval op e a' b' = eval op e a b) ∧
    (eval op e a b).toNat < 2 ^ e.bits ∧
    ∀ k, meaning? op e (value e a) (value e b) (b.toNat % e.bits) = some k →
      ((eval op e a b).toNat : Int) = k % 2 ^ e.bits := by
  have bounded := eval_lt valid whole op a b
  refine ⟨fun a' b' left right => eval_congr valid whole op left right, bounded, fun k meant => ?_⟩
  have low : ((eval op e a b).toNat : Int) % 2 ^ e.bits = (eval op e a b).toNat :=
    Int.emod_eq_of_lt (Int.natCast_nonneg _) (by exact_mod_cast bounded)
  rw [← low]
  exact spells_exact valid whole op a b meant

/-- The greatest signed number of 64 bits and five more: the words wrap and the lane does not. -/
theorem integer_lanes_exact_wrapping :
    Elem.s64.valid = true ∧ Elem.s64.isFloat = false ∧
      meaning? .ads .s64 (value .s64 0x7FFFFFFFFFFFFFFF) (value .s64 5) 5 = some (2 ^ 63 - 1) ∧
      ((eval .ads .s64 0x7FFFFFFFFFFFFFFF 5).toNat : Int) = (2 ^ 63 - 1) % 2 ^ 64 := by
  have meant : meaning? .ads .s64 (value .s64 0x7FFFFFFFFFFFFFFF) (value .s64 5) 5
      = some (2 ^ 63 - 1) := by decide
  exact ⟨rfl, rfl, meant, (integer_lanes_exact rfl rfl .ads _ _).2.2 _ meant⟩

end Lane

end LaneAsm
