import LaneAsm.Proofs.Lanes

/-!
What a lane stands for. An integer lane is a number (`value`): signed lanes are the balanced
remainder of their bits and unsigned lanes the plain one. Comparators are relations of these numbers
(`integer_compare`), the minimum and the maximum are those of the numbers, and from that every
identity between comparators follows. Of float lanes only the symmetry of equality is needed.
-/
namespace LaneAsm.Lane

/-! ## Signed words -/

theorem toInt_toInt64 (x : UInt64) : x.toInt64.toInt = (x.toNat : Int).bmod (2 ^ 64) := by
  rw [← Int64.toInt_toBitVec, UInt64.toBitVec_toInt64, BitVec.toInt_eq_toNat_bmod]
  rfl

theorem toInt_shiftRightSigned (x : Int64) (n : UInt64) (small : n.toNat < 64) :
    (shiftRightSigned x n).toInt = x.toInt / 2 ^ n.toNat := by
  have count : n.toInt64.toBitVec.smod 64 = n.toBitVec := by
    apply BitVec.eq_of_toInt_eq
    rw [BitVec.toInt_smod, UInt64.toBitVec_toInt64,
      BitVec.toInt_eq_toNat_of_lt (by simpa using by omega),
      Int.fmod_eq_emod_of_nonneg _ (by decide)]
    exact Int.emod_eq_of_lt (by omega) (by simpa using Int.ofNat_lt.mpr small)
  rw [shiftRightSigned, if_pos (UInt64.lt_iff_toNat_lt.mpr small), ← Int64.toInt_toBitVec,
    Int64.toBitVec_shiftRight, BitVec.toInt_sshiftRight', count, Int.shiftRight_eq_div_pow]
  simp

/-- Sign extension is the balanced remainder. -/
theorem toInt_signExtend {e : Elem} (valid : e.valid = true) (x : UInt64) :
    (signExtend e.bits x).toInt = (x.toNat : Int).bmod (2 ^ e.bits) := by
  have size := x.toNat_lt
  have count : (64 - UInt64.ofNat e.bits).toNat = 64 - e.bits := by
    rcases Elem.bits_of_valid valid with bits | bits | bits | bits <;> rw [bits] <;> rfl
  have small : 64 - e.bits < 64 := by
    rcases Elem.bits_of_valid valid with bits | bits | bits | bits <;> omega
  have moved : (shiftLeft x (64 - UInt64.ofNat e.bits)).toNat =
      x.toNat * 2 ^ (64 - e.bits) % 2 ^ 64 := by
    rw [shiftLeft, if_pos (UInt64.lt_iff_toNat_lt.mpr (by rwa [count])), UInt64.toNat_shiftLeft,
      count, Nat.mod_eq_of_lt small, Nat.shiftLeft_eq]
  rw [signExtend, toInt_shiftRightSigned _ _ (by rwa [count]), toInt_toInt64, moved, count]
  rcases Elem.bits_of_valid valid with bits | bits | bits | bits <;> rw [bits] <;>
    simp [Int.bmod_def] <;> omega

/-! ## Integer lanes -/

/-- The number that an integer lane stands for. -/
def value (e : Elem) (x : UInt64) : Int :=
  if e.kind = .signed then (x.toNat : Int).bmod (2 ^ e.bits) else (x.toNat : Int) % 2 ^ e.bits

theorem value_and_mask {e : Elem} (valid : e.valid = true) (x : UInt64) :
    value e (x &&& e.mask) = value e x := by
  have cut : ((x &&& e.mask).toNat : Int) = (x.toNat : Int) % (2 ^ e.bits : Nat) := by
    rw [Elem.toNat_and_mask valid, Int.natCast_emod]
  rw [value, value, cut]
  split
  · rw [Int.emod_bmod]
  · simp

theorem value_of_signed {e : Elem} (valid : e.valid = true) (signed : e.kind = .signed)
    (x : UInt64) : (signExtend e.bits (x &&& e.mask)).toInt = value e x := by
  rw [toInt_signExtend valid, ← value_and_mask valid, value, if_pos signed]

theorem value_of_unsigned {e : Elem} (valid : e.valid = true) (unsigned : e.kind ≠ .signed)
    (x : UInt64) : ((x &&& e.mask).toNat : Int) = value e x := by
  rw [value, if_neg unsigned, Elem.toNat_and_mask valid]
  simp

/-- A sign-extended lane cut to its width is the lane. -/
theorem value_toUInt64 {e : Elem} (valid : e.valid = true) (signed : e.kind = .signed)
    (x : UInt64) : value e (signExtend e.bits x).toUInt64 = value e x := by
  have narrow : e.bits ≤ 64 := by
    rcases Elem.bits_of_valid valid with bits | bits | bits | bits <;> omega
  have back : ((signExtend e.bits x).toUInt64.toNat : Int).bmod (2 ^ 64) =
      (signExtend e.bits x).toInt := by
    rw [← toInt_toInt64]
    simp
  rw [value, value, if_pos signed, if_pos signed,
    ← Int.bmod_bmod_of_dvd (Nat.pow_dvd_pow 2 narrow), back, toInt_signExtend valid, Int.bmod_bmod]

/-- What a comparator says of two numbers. -/
def relates (c : Op) (a b : Int) : Bool :=
  match c with
  | .ceq => a = b
  | .cne => a ≠ b
  | .clt => a < b
  | .cle => a ≤ b
  | .cgt => b < a
  | .cge => b ≤ a
  | _ => false

theorem relates_swapped {c : Op} (compare : c.isCompare = true) (a b : Int) :
    relates c.swapped b a = relates c a b := by
  cases c <;> simp_all [Op.isCompare, Op.swapped, relates, eq_comm]

theorem relates_complement {c : Op} (compare : c.isCompare = true) (a b : Int) :
    relates c.complement a b = !relates c a b := by
  cases c <;> simp_all [Op.isCompare, Op.complement, relates] <;> grind

theorem signedLane?_compare {c : Op} (compare : c.isCompare = true) (e : Elem) (a b : Int64)
    (n : UInt64) : signedLane? c e a b n = some (flag e (relates c a.toInt b.toInt)) := by
  have equal : (a == b) = decide (a.toInt = b.toInt) := by
    rw [Bool.eq_iff_iff, beq_iff_eq, decide_eq_true_iff, Int64.toInt_inj]
  cases c <;> simp only [Op.isCompare, Bool.false_eq_true] at compare <;>
    simp [signedLane?, relates, Int64.lt_iff_toInt_lt, Int64.le_iff_toInt_le, bne, equal]

theorem unsignedLane?_compare {c : Op} (compare : c.isCompare = true) (e : Elem) (a b : UInt64) :
    unsignedLane? c e a b = some (flag e (relates c a.toNat b.toNat)) := by
  have equal : (a == b) = decide (a.toNat = b.toNat) := by
    rw [Bool.eq_iff_iff, beq_iff_eq, decide_eq_true_iff, UInt64.toNat_inj]
  cases c <;> simp only [Op.isCompare, Bool.false_eq_true] at compare <;>
    simp only [unsignedLane?, relates, UInt64.lt_iff_toNat_lt, UInt64.le_iff_toNat_le, bne, equal,
      Int.ofNat_lt, Int.ofNat_le, Int.ofNat_inj, decide_not, ne_eq]

/-- A comparator of integer lanes compares their numbers. -/
theorem integer_compare {c : Op} (compare : c.isCompare = true) {e : Elem} (valid : e.valid = true)
    (x y : UInt64) : integer c e x y = flag e (relates c (value e x) (value e y)) := by
  by_cases signed : e.kind = .signed
  · simp only [integer, if_pos signed, signedLane?_compare compare, value_of_signed valid signed]
  · simp only [integer, if_neg signed, unsignedLane?_compare compare,
      value_of_unsigned valid signed]

theorem value_min {e : Elem} (valid : e.valid = true) (x y : UInt64) :
    value e (integer .min e x y) = min (value e x) (value e y) := by
  by_cases signed : e.kind = .signed
  · simp only [integer, signedLane?, signed, ↓reduceIte, value_and_mask valid,
      Int64.lt_iff_toInt_lt, value_of_signed valid signed]
    split <;> simp only [value_toUInt64 valid signed, value_and_mask valid] <;> omega
  · simp only [integer, unsignedLane?, signed, ↓reduceIte, UInt64.lt_iff_toNat_lt, ← Int.ofNat_lt,
      value_of_unsigned valid signed]
    split <;> simp only [value_and_mask valid] <;> omega

theorem value_max {e : Elem} (valid : e.valid = true) (x y : UInt64) :
    value e (integer .max e x y) = max (value e x) (value e y) := by
  by_cases signed : e.kind = .signed
  · simp only [integer, signedLane?, signed, ↓reduceIte, value_and_mask valid,
      Int64.lt_iff_toInt_lt, value_of_signed valid signed]
    split <;> simp only [value_toUInt64 valid signed, value_and_mask valid] <;> omega
  · simp only [integer, unsignedLane?, signed, ↓reduceIte, UInt64.lt_iff_toNat_lt, ← Int.ofNat_lt,
      value_of_unsigned valid signed]
    split <;> simp only [value_and_mask valid] <;> omega

/-! ## Float lanes -/

open Float.Model

theorem compare_swap (a b : UnpackedFloat) : (a.compare b).map Ordering.swap = b.compare a := by
  cases a with
  | notANumber => cases b <;> rfl
  | infinity s =>
    cases b with
    | notANumber => cases s <;> rfl
    | infinity t => cases s <;> cases t <;> rfl
    | _ => cases s <;> rfl
  | zero s =>
    cases b with
    | infinity t | finite t _ _ _ => cases t <;> rfl
    | _ => rfl
  | finite s m n _ =>
    cases b with
    | infinity t => cases s <;> cases t <;> rfl
    | finite t _ _ _ =>
      cases s <;> cases t <;> dsimp only [UnpackedFloat.compare] <;>
        simp [Ordering.swap_then, ← Std.OrientedOrd.eq_swap]
    | _ => cases s <;> rfl

theorem beq_comm (a b : UnpackedFloat) : a.beq b = b.beq a := by
  show (a.compare b == some .eq) = (b.compare a == some .eq)
  rw [← compare_swap b a]
  cases b.compare a with
  | none => rfl
  | some order => cases order <;> rfl

/-- The outcome of comparing two float lanes the other way round. -/
theorem float_swapped {c : Op} (compare : c.isCompare = true) (e : Elem) (x y : UInt64) :
    float c.swapped e y x = float c e x y := by
  have single (a b : Float32) : (a == b) = (b == a) := beq_comm a.toModel.unpack b.toModel.unpack
  have double (a b : Float) : (a == b) = (b == a) := beq_comm a.toModel.unpack b.toModel.unpack
  cases c <;> simp only [Op.isCompare, Bool.false_eq_true] at compare <;>
    simp only [float, Op.swapped, singleArith?, doubleArith?, ordered]
  all_goals simp only [single (.ofBits y.toUInt32), double (.ofBits y)]

/-! ## Identities between comparators -/

theorem eval_swapped {c : Op} (compare : c.isCompare = true) {e : Elem} (valid : e.valid = true)
    (x y : UInt64) : eval c.swapped e y x = eval c e x y := by
  have swapped : c.swapped.isCompare = true := by
    cases c <;> simp_all [Op.isCompare, Op.swapped]
  rw [eval, eval]
  split
  · exact float_swapped compare e x y
  · rw [integer_compare swapped valid, integer_compare compare valid, relates_swapped compare]

theorem complement_flag {e : Elem} (holds : Bool) :
    ~~~flag e (!holds) &&& e.mask = flag e holds &&& e.mask := by
  cases holds <;> simp [flag]

/-- Inequality is the complement of equality, on every kind of lane. -/
theorem eval_unequal {e : Elem} (valid : e.valid = true) (x y : UInt64) :
    ~~~eval .ceq e x y &&& e.mask = eval .cne e x y &&& e.mask := by
  have flip (holds : Bool) : ~~~flag e holds &&& e.mask = flag e (!holds) &&& e.mask := by
    simpa using complement_flag (e := e) (!holds)
  rw [eval, eval]
  split
  · rw [float, float]
    split <;> exact flip _
  · rw [integer_compare rfl valid, integer_compare rfl valid, flip,
      ← relates_complement (c := .ceq) rfl, Op.complement]

section
variable {e : Elem} (valid : e.valid = true) (whole : e.isFloat = false)
include valid whole

theorem eval_compare {c : Op} (compare : c.isCompare = true) (x y : UInt64) :
    eval c e x y = flag e (relates c (value e x) (value e y)) := by
  rw [eval, if_neg (by simp [whole]), integer_compare compare valid]

/-- On integers each comparator is the complement of its complementary one. -/
theorem eval_complement {c : Op} (compare : c.isCompare = true) (x y : UInt64) :
    ~~~eval c.complement e x y &&& e.mask = eval c e x y &&& e.mask := by
  have complement : c.complement.isCompare = true := by
    cases c <;> simp_all [Op.isCompare, Op.complement]
  rw [eval_compare valid whole complement, eval_compare valid whole compare,
    relates_complement compare, complement_flag]

theorem eval_equal_and_mask (x y : UInt64) : eval .ceq e (x &&& e.mask) y = eval .ceq e x y := by
  rw [eval_compare valid whole rfl, eval_compare valid whole rfl, value_and_mask valid]

/-- One integer is below another where it is not their maximum. -/
theorem eval_below {c : Op} (strict : c = .clt ∨ c = .cgt) (x y : UInt64) :
    ~~~eval .ceq e (eval .max e x y) (if c = .clt then x else y) &&& e.mask =
      eval c e x y &&& e.mask := by
  have compare : c.isCompare = true := by rcases strict with rfl | rfl <;> rfl
  have maximum : value e (eval .max e x y) = max (value e x) (value e y) := by
    rw [eval, if_neg (by simp [whole]), value_max valid]
  rw [eval_compare valid whole rfl, eval_compare valid whole compare, ← complement_flag, maximum]
  congr
  rcases strict with rfl | rfl <;>
    (simp only [relates, ← decide_not, decide_eq_decide, if_true, reduceCtorEq, if_false]; omega)

/-- One integer is at most another where it is their minimum. -/
theorem eval_atMost {c : Op} (loose : c = .cle ∨ c = .cge) (x y : UInt64) :
    eval .ceq e (eval .min e x y) (if c = .cle then x else y) = eval c e x y := by
  have compare : c.isCompare = true := by rcases loose with rfl | rfl <;> rfl
  have minimum : value e (eval .min e x y) = min (value e x) (value e y) := by
    rw [eval, if_neg (by simp [whole]), value_min valid]
  rw [eval_compare valid whole rfl, eval_compare valid whole compare, minimum]
  congr 1
  rcases loose with rfl | rfl <;>
    (simp only [relates, decide_eq_decide, if_true, reduceCtorEq, if_false]; omega)

end

end LaneAsm.Lane
