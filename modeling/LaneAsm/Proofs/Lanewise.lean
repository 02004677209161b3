import LaneAsm.Proofs.Lanes
import LaneAsm.Proofs.Shape

/-!
Vectors and the lists of their lanes. Packing lanes and reading them back are inverse to each other
(`Bytes.pack?_eq`, `Bytes.unpack?_eq`), and an operation on packed lanes is the operation on each of
them. The operations on bits work byte by byte, which is the same as working on whole lanes
(`Lanes.zipWith_ofLanes`), so that they need not be told where the lanes begin.
-/
namespace LaneAsm

/-! ## Packing -/

namespace Bytes

section
variable {e : Elem} (valid : e.valid = true)
include valid

theorem pack?_eq (xs : List UInt64) : pack? e xs = some (ofLanes e xs) := by
  have pos := Elem.bytes_pos valid
  have count : xs.length * e.bytes / e.bytes = xs.length := Nat.mul_div_cancel _ pos
  have lanes : (List.range xs.length).map (fun i => xs.getD i 0) = xs := by
    apply List.ext_getElem
    · simp
    · intro i _ inside
      simp [inside]
  have filled := fill?_zeros valid (f := fun i => xs[i]?) (g := fun i => xs.getD i 0)
    (Nat.dvd_mul_left e.bytes xs.length) fun i inside => by
      rw [count] at inside
      simp [inside]
  rw [count, lanes] at filled
  exact filled

theorem lanesFrom?_eq {v : Bytes} {i n : Nat} (inside : i + n ≤ v.size / e.bytes) :
    lanesFrom? v e i n =
      some ((List.range' i n).map fun j => v.readWord (j * e.bytes) e.width) := by
  induction n generalizing i with
  | zero => rfl
  | succ n ih =>
    rw [lanesFrom?, lane?_eq valid (by omega), ih (by omega)]
    rfl

theorem unpack?_eq (v : Bytes) : unpack? e v = some (v.lanes e) := by
  rw [unpack?, laneCount?_eq valid]
  refine (lanesFrom?_eq valid (Nat.le_of_eq (Nat.zero_add _))).trans ?_
  rw [lanes, List.range_eq_range']

end

end Bytes

/-! ## Single lanes -/

namespace Lane

/-- A word has no bits above those of a lane. -/
def Fits (e : Elem) (x : UInt64) : Prop := x.toNat < 2 ^ e.bits

instance (e : Elem) (x : UInt64) : Decidable (Fits e x) := inferInstanceAs (Decidable (_ < _))

/-- The operations on bits, of whole lanes. -/
def bitwise (op : Op) (x y : UInt64) : UInt64 :=
  match op with
  | .and => x &&& y
  | .ann => ~~~x &&& y
  | .orr => x ||| y
  | .orn => ~~~x ||| y
  | .xor => x ^^^ y
  | .not => ~~~x
  | _ => 0

section
variable {e : Elem} (valid : e.valid = true)
include valid

theorem fits_of_le_mask {x : UInt64} (small : x ≤ e.mask) : Fits e x := by
  have bounded := UInt64.le_iff_toNat_le.1 small
  have pos := Nat.two_pow_pos e.bits
  rw [Elem.toNat_mask valid] at bounded
  unfold Fits
  omega

theorem and_mask_of_fits {x : UInt64} (fits : Fits e x) : x &&& e.mask = x := by
  rw [← UInt64.toNat_inj, Elem.toNat_and_mask valid, Nat.mod_eq_of_lt fits]

/-- The comparisons of floats give a lane of ones or zeros, or one of the lanes they were given. -/
theorem fits_ordered {x y : UInt64} (left : Fits e x) (right : Fits e y) (op : Op)
    (less greater equal : Bool) : Fits e (ordered op e x y less greater equal) := by
  have chosen (b : Bool) : Fits e (if b then x else y) := by
    cases b
    · exact right
    · exact left
  unfold ordered
  split
  · exact chosen less
  · exact chosen greater
  all_goals
    apply fits_of_le_mask valid
    first | exact flag_le_mask e _ | exact UInt64.zero_le

theorem fits_float {x y : UInt64} (left : Fits e x) (right : Fits e y) (op : Op)
    (real : e.isFloat = true) : Fits e (float op e x y) := by
  unfold float
  split
  · next single =>
    dsimp only
    split
    · rw [Fits, single, UInt32.toNat_toUInt64]
      exact UInt32.toNat_lt _
    · exact fits_ordered valid left right ..
  · next double =>
    have bits : e.bits = 64 := by
      rcases Elem.bits_of_valid valid with bits | bits | bits | bits
      · simp [Elem.valid, bits, real] at valid
      · simp [Elem.valid, bits, real] at valid
      · exact absurd bits double
      · exact bits
    rw [Fits, bits]
    exact UInt64.toNat_lt _

/-- The result of an operation on lanes is a lane. -/
theorem fits_eval {x y : UInt64} (left : Fits e x) (right : Fits e y) (op : Op) :
    Fits e (eval op e x y) := by
  unfold eval
  split
  · next real => exact fits_float valid left right op real
  · exact fits_of_le_mask valid (integer_le_mask op e x y)

theorem map_and_mask {xs : List UInt64} (fits : ∀ x ∈ xs, Fits e x) : xs.map (· &&& e.mask) = xs := by
  refine (List.map_congr_left fun x member => ?_).trans (List.map_id xs)
  exact and_mask_of_fits valid (fits x member)

end

end Lane

/-! ## Bits -/

/-- Words are combined byte by byte by what combines their lowest bytes and goes with moving down. -/
theorem zipWith_littleEndian {f : UInt8 → UInt8 → UInt8} {g : UInt64 → UInt64 → UInt64}
    (low : ∀ x y, (g x y).toUInt8 = f x.toUInt8 y.toUInt8)
    (high : ∀ x y, g x y >>> 8 = g (x >>> 8) (y >>> 8)) (n : Nat) (x y : UInt64) :
    List.zipWith f (littleEndian n x) (littleEndian n y) = littleEndian n (g x y) := by
  induction n generalizing x y with
  | zero => rfl
  | succ n ih =>
    rw [littleEndian, littleEndian, littleEndian, List.zipWith_cons_cons, ih, low, high]

theorem zipWith_logicByte {op : Op} (logic : op.isLogic = true) (binary : op ≠ .not) {n : Nat}
    (short : n ≤ 8) (x y : UInt64) :
    List.zipWith (Lane.logicByte op) (littleEndian n x) (littleEndian n y) =
      littleEndian n (Lane.bitwise op x y) := by
  have and := zipWith_littleEndian (f := (· &&& ·)) (g := (· &&& ·)) (fun x y => UInt64.toUInt8_and x y)
    (fun _ _ => UInt64.shiftRight_and)
  have or := zipWith_littleEndian (f := (· ||| ·)) (g := (· ||| ·)) (fun x y => UInt64.toUInt8_or x y)
    (fun _ _ => UInt64.shiftRight_or)
  have xor := zipWith_littleEndian (f := (· ^^^ ·)) (g := (· ^^^ ·)) (fun x y => UInt64.toUInt8_xor x y)
    (fun _ _ => UInt64.shiftRight_xor)
  cases op with
  | and => exact and n x y
  | orr => exact or n x y
  | xor => exact xor n x y
  | ann =>
    rw [Lane.bitwise, ← and, littleEndian_complement n x short, List.zipWith_map_left]
    rfl
  | orn =>
    rw [Lane.bitwise, ← or, littleEndian_complement n x short, List.zipWith_map_left]
    rfl
  | not => exact absurd rfl binary
  | _ => cases logic

namespace Lanes

open Bytes

/-- Joining the bytes of lanes joins the lanes. -/
theorem zipWith_ofLanes {op : Op} (logic : op.isLogic = true) (binary : op ≠ .not) {e : Elem}
    (valid : e.valid = true) {xs ys : List UInt64} (same : xs.length = ys.length) :
    Array.zipWith (Lane.logicByte op) (ofLanes e xs) (ofLanes e ys) =
      ofLanes e (List.zipWith (Lane.bitwise op) xs ys) := by
  have short : e.width ≤ 8 := Elem.width_of_valid valid ▸ Elem.bytes_le valid
  have joined (x y : UInt64) : Array.zipWith (Lane.logicByte op) (ofLanes e [x]) (ofLanes e [y]) =
      ofLanes e [Lane.bitwise op x y] := by
    simp [ofLanes, zipWith_logicByte logic binary short]
  induction xs generalizing ys with
  | nil =>
    obtain rfl := List.length_eq_zero_iff.1 same.symm
    simp [ofLanes]
  | cons x xs ih =>
    obtain ⟨y, ys, rfl⟩ := List.exists_cons_of_length_eq_add_one same.symm
    rw [← List.singleton_append, ← List.singleton_append (l := ys), ofLanes_append, ofLanes_append,
      Array.zipWith_append (by simp [size_ofLanes]), joined, ih (Nat.succ.inj same), ← ofLanes_append]
    rfl

/-- The operations on bits do not ask for the element. -/
theorem eval?_logic_elem {op : Op} (logic : op.isLogic = true) (d e : Elem) (a b : Bytes) :
    eval? op d a b = eval? op e a b := by
  cases op with
  | and | ann | orr | orn | xor | not => rfl
  | _ => cases logic

/-- The operations on bits work on whole lanes. -/
theorem eval?_logic {op : Op} (logic : op.isLogic = true) {e : Elem} (valid : e.valid = true)
    {xs ys : List UInt64} (same : xs.length = ys.length) :
    eval? op e (ofLanes e xs) (ofLanes e ys) =
      some (ofLanes e (List.zipWith (Lane.bitwise op) xs ys)) := by
  have size : (ofLanes e xs).size ≤ (ofLanes e ys).size :=
    Nat.le_of_eq (by rw [size_ofLanes, size_ofLanes, same])
  by_cases unary : op = .not
  · subst unary
    have left : List.zipWith (Lane.bitwise .not) xs ys = xs.map (~~~·) :=
      calc List.zipWith (Lane.bitwise .not) xs ys
        _ = (xs.zip ys).map ((~~~·) ∘ Prod.fst) :=
          (List.map_zip_eq_zipWith (f := (~~~·) ∘ Prod.fst)).symm
        _ = ((xs.zip ys).map Prod.fst).map (~~~·) := List.map_map.symm
        _ = xs.map (~~~·) := by rw [List.map_fst_zip (Nat.le_of_eq same)]
    rw [left, ← complement_ofLanes valid]
    rfl
  · rw [← zipWith_ofLanes logic unary valid same]
    cases op with
    | and | ann | orr | orn | xor => exact if_pos size
    | not => exact absurd rfl unary
    | _ => cases logic

/-- A shift by the first lane of a vector is the shift by that count. -/
theorem eval?_first {op : Op} (shift : op = .shl ∨ op = .shr) {e : Elem} {a b : Bytes} {n : UInt64}
    (first : b.lane? e 0 = some n) : eval? op e a b = shift? op e a n := by
  rcases shift with rfl | rfl <;> simp only [eval?, shift?, first, Option.bind_eq_bind, Option.bind_some]

/-- An operation on packed lanes, unpacked. -/
def evalPacked? (op : Op) (e : Elem) (xs ys : List UInt64) : Option (List UInt64) := do
  let a ← pack? e xs
  let b ← pack? e ys
  unpack? e (← eval? op e a b)

section
variable {e : Elem} (valid : e.valid = true)
include valid

theorem dvd_size_ofLanes (xs : List UInt64) : e.bytes ∣ (ofLanes e xs).size := by
  rw [size_ofLanes, Elem.width_of_valid valid]
  exact Nat.dvd_mul_left ..

/-- What an operation makes of packed lanes is unpacked as the lanes it is made of. -/
theorem evalPacked?_of_eval? {op : Op} {xs ys zs : List UInt64}
    (made : eval? op e (ofLanes e xs) (ofLanes e ys) = some (ofLanes e zs)) :
    evalPacked? op e xs ys = some (zs.map (· &&& e.mask)) := by
  simp only [evalPacked?, pack?_eq valid, Option.bind_eq_bind, Option.bind_some, made, unpack?_eq valid,
    lanes_ofLanes valid]

variable {xs ys : List UInt64}

theorem lanes_ofLanes_of_fits (fits : ∀ x ∈ xs, Lane.Fits e x) : (ofLanes e xs).lanes e = xs := by
  rw [lanes_ofLanes valid, Lane.map_and_mask valid fits]

theorem evalPacked?_paired {op : Op} (lanewise : paired op = true) (left : ∀ x ∈ xs, Lane.Fits e x)
    (right : ∀ y ∈ ys, Lane.Fits e y) (same : xs.length = ys.length) :
    evalPacked? op e xs ys = some (List.zipWith (Lane.eval op e) xs ys) := by
  have sizes : (ofLanes e xs).size = (ofLanes e ys).size := by rw [size_ofLanes, size_ofLanes, same]
  have made := eval?_paired lanewise valid (dvd_size_ofLanes valid xs) sizes
  rw [lanes_ofLanes_of_fits valid left, lanes_ofLanes_of_fits valid right] at made
  rw [evalPacked?_of_eval? valid made, Lane.map_and_mask valid]
  intro z member
  obtain ⟨i, inside, rfl⟩ := List.mem_iff_getElem.1 member
  rw [List.getElem_zipWith]
  exact Lane.fits_eval valid (left _ (List.getElem_mem _)) (right _ (List.getElem_mem _)) op

theorem evalPacked?_first {op : Op} (shift : op = .shl ∨ op = .shr) {y : UInt64}
    (left : ∀ x ∈ xs, Lane.Fits e x) (count : Lane.Fits e y) :
    evalPacked? op e xs (y :: ys) = some (xs.map (Lane.eval op e · y)) := by
  have pos := Elem.bytes_pos valid
  have inside : 0 < (ofLanes e (y :: ys)).size / e.bytes := by
    rw [size_ofLanes, Elem.width_of_valid valid, Nat.mul_div_cancel _ pos]
    exact Nat.succ_pos _
  have first : (ofLanes e (y :: ys)).lane? e 0 = some y := by
    rw [lane?_eq valid inside]
    have head := congrArg List.head? (lanes_ofLanes valid (y :: ys))
    rw [lanes, List.head?_map, List.head?_range, if_neg (by omega)] at head
    simpa [Lane.and_mask_of_fits valid count] using head
  have made := (eval?_first shift first).trans (shift?_eq op valid (dvd_size_ofLanes valid xs) y)
  rw [lanes_ofLanes_of_fits valid left] at made
  rw [evalPacked?_of_eval? valid made, Lane.map_and_mask valid]
  intro z member
  obtain ⟨x, given, rfl⟩ := List.mem_map.1 member
  exact Lane.fits_eval valid (left x given) count op

theorem evalPacked?_logic {op : Op} (logic : op.isLogic = true) (same : xs.length = ys.length) :
    evalPacked? op e xs ys = some (List.zipWith (fun x y => Lane.bitwise op x y &&& e.mask) xs ys) := by
  rw [evalPacked?_of_eval? valid (eval?_logic logic valid same), List.map_zipWith]

end

end Lanes

open Bytes Lanes

/-- Vectors are the lists of their lanes. Packing and unpacking undo each other. On packed lanes a
paired operation works pair by pair, whether or not it applies to the element, and a shift by one
count takes the first lane of its second source for it. The operations on bits join the bits of the
lanes, and give the same vector whatever the element. -/
theorem vectors_lanewise {e : Elem} (valid : e.valid = true) :
    (∀ xs : List UInt64, (∀ x ∈ xs, Lane.Fits e x) → (pack? e xs).bind (unpack? e) = some xs) ∧
    (∀ v : Bytes, e.bytes ∣ v.size → (unpack? e v).bind (pack? e) = some v) ∧
    (∀ (op : Op) (xs ys : List UInt64), (∀ x ∈ xs, Lane.Fits e x) → (∀ y ∈ ys, Lane.Fits e y) →
      xs.length = ys.length →
      (paired op = true → evalPacked? op e xs ys = some (List.zipWith (Lane.eval op e) xs ys)) ∧
      (op = .shl ∨ op = .shr → ∀ y ∈ ys.head?,
        evalPacked? op e xs ys = some (xs.map (Lane.eval op e · y))) ∧
      (op.isLogic = true → evalPacked? op e xs ys =
        some (List.zipWith (fun x y => Lane.bitwise op x y &&& e.mask) xs ys))) ∧
    ∀ op : Op, op.isLogic = true → ∀ (d : Elem) (a b : Bytes), eval? op d a b = eval? op e a b := by
  refine ⟨fun xs fits => ?_, fun v whole => ?_, fun op xs ys left right same => ⟨?_, ?_, ?_⟩, ?_⟩
  · rw [pack?_eq valid, Option.bind_some, unpack?_eq valid, lanes_ofLanes_of_fits valid fits]
  · rw [unpack?_eq valid, Option.bind_some, pack?_eq valid, ofLanes_lanes valid whole]
  · exact fun lanewise => evalPacked?_paired valid lanewise left right same
  · intro shift y first
    obtain ⟨rest, rfl⟩ := List.head?_eq_some_iff.1 first
    exact evalPacked?_first valid shift left (right y List.mem_cons_self)
  · exact fun logic => evalPacked?_logic valid logic same
  · exact fun op logic d a b => eval?_logic_elem logic d e a b

/-- Lanes of sixteen bits that are shifted each by a count of its own, one of them beyond the width. -/
theorem vectors_lanewise_counts :
    let xs : List UInt64 := [0x8000, 0x7FFF]
    let ys : List UInt64 := [17, 3]
    (Elem.s16.valid = true ∧ (∀ x ∈ xs, Lane.Fits .s16 x) ∧ (∀ y ∈ ys, Lane.Fits .s16 y) ∧
      xs.length = ys.length ∧ paired .svr = true) ∧
    List.zipWith (Lane.eval .svr .s16) xs ys = [0xC000, 0x0FFF] ∧
    evalPacked? .svr .s16 xs ys = some [0xC000, 0x0FFF] := by
  intro xs ys
  have pair {x y : UInt64} (first : Lane.Fits .s16 x) (second : Lane.Fits .s16 y) :
      ∀ z ∈ [x, y], Lane.Fits .s16 z := by
    simp only [List.forall_mem_cons]
    exact ⟨first, second, List.forall_mem_nil _⟩
  have left : ∀ x ∈ xs, Lane.Fits .s16 x := pair (by decide) (by decide)
  have right : ∀ y ∈ ys, Lane.Fits .s16 y := pair (by decide) (by decide)
  have lanes : List.zipWith (Lane.eval .svr .s16) xs ys = [0xC000, 0x0FFF] := by decide +kernel
  have packed := ((vectors_lanewise (e := .s16) rfl).2.2.1 .svr xs ys left right rfl).1 rfl
  exact ⟨⟨rfl, left, right, rfl, rfl⟩, lanes, lanes ▸ packed⟩

end LaneAsm
