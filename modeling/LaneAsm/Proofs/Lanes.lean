import LaneAsm.Lane.Vector
import LaneAsm.Proofs.Bytes

/-!
Vectors as lists of lanes. A vector of whole lanes is the little-endian spelling of its lanes
(`ofLanes_lanes`), lanes survive it up to their range (`lanes_ofLanes`), and the operations on
vectors are maps and zips of their lanes.
-/
namespace LaneAsm

namespace Elem

theorem bits_of_valid {e : Elem} (valid : e.valid = true) :
    e.bits = 8 ∨ e.bits = 16 ∨ e.bits = 32 ∨ e.bits = 64 := by
  simp only [Elem.valid] at valid
  split at valid
  · simp_all
    omega
  · simp_all

/-- A lane of a valid type fills the bytes from one lane to the next. -/
theorem width_of_valid {e : Elem} (valid : e.valid = true) : e.width = e.bytes := by
  rcases bits_of_valid valid with bits | bits | bits | bits <;> simp [width, bytes, bits]

theorem bits_pos {e : Elem} (valid : e.valid = true) : 0 < e.bits := by
  rcases bits_of_valid valid with bits | bits | bits | bits <;> omega

theorem bytes_pos {e : Elem} (valid : e.valid = true) : 0 < e.bytes := by
  rcases bits_of_valid valid with bits | bits | bits | bits <;> simp [bytes, bits]

theorem bytes_le {e : Elem} (valid : e.valid = true) : e.bytes ≤ 8 := by
  rcases bits_of_valid valid with bits | bits | bits | bits <;> simp [bytes, bits]

theorem bytes_dvd {e : Elem} (valid : e.valid = true) : e.bytes ∣ 8 := by
  apply Nat.dvd_of_mod_eq_zero
  rcases bits_of_valid valid with bits | bits | bits | bits <;> simp [bytes, bits]

theorem range_of_valid {e : Elem} (valid : e.valid = true) : 256 ^ e.bytes = 2 ^ e.bits := by
  rcases bits_of_valid valid with bits | bits | bits | bits <;> simp [bytes, bits]

theorem toNat_mask {e : Elem} (valid : e.valid = true) : e.mask.toNat = 2 ^ e.bits - 1 := by
  rcases bits_of_valid valid with bits | bits | bits | bits <;> simp [mask, ones, bits] <;> rfl

/-- Masking a word keeps its value modulo the range of a lane. -/
theorem toNat_and_mask {e : Elem} (valid : e.valid = true) (x : UInt64) :
    (x &&& e.mask).toNat = x.toNat % 2 ^ e.bits := by
  rw [UInt64.toNat_and, toNat_mask valid, Nat.and_two_pow_sub_one_eq_mod]

end Elem

namespace Bytes

/-- The lanes of a vector. -/
def lanes (e : Elem) (v : Bytes) : List UInt64 :=
  (List.range (v.size / e.bytes)).map fun i => v.readWord (i * e.bytes) e.width

/-- The vector of some lanes, one after the other. -/
def ofLanes (e : Elem) (xs : List UInt64) : Bytes := (xs.flatMap (littleEndian e.width)).toArray

theorem length_lanes (e : Elem) (v : Bytes) : (v.lanes e).length = v.size / e.bytes := by
  simp [lanes]

theorem size_ofLanes (e : Elem) (xs : List UInt64) :
    (ofLanes e xs).size = xs.length * e.width := by
  induction xs with
  | nil => simp [ofLanes]
  | cons x xs ih =>
    simp only [ofLanes, List.size_toArray] at ih
    simp [ofLanes, length_littleEndian, ih, Nat.succ_mul, Nat.add_comm]

theorem ofLanes_append (e : Elem) (xs ys : List UInt64) :
    ofLanes e (xs ++ ys) = ofLanes e xs ++ ofLanes e ys := by
  simp [ofLanes]

theorem lanes_append {e : Elem} (valid : e.valid = true) {a b : Bytes}
    (whole : e.bytes ∣ a.size) : (a ++ b).lanes e = a.lanes e ++ b.lanes e := by
  obtain ⟨k, size⟩ := whole
  have pos := Elem.bytes_pos valid
  have count : (a ++ b).size / e.bytes = k + b.size / e.bytes := by
    rw [Array.size_append, size, Nat.mul_add_div pos]
  have first : a.size / e.bytes = k := by rw [size, Nat.mul_div_cancel_left _ pos]
  simp only [lanes, count, first, List.range_add, List.map_append, List.map_map]
  congr 1
  · apply List.map_congr_left
    intro i member
    have inside : i < k := by simpa using member
    have room : (i + 1) * e.bytes ≤ a.size := by
      rw [size, Nat.mul_comm]
      exact Nat.mul_le_mul_left _ inside
    rw [Nat.add_mul] at room
    rw [readWord_eq, readWord_eq, Array.toList_append,
      List.drop_append_of_le_length (by simp; omega), List.take_append_of_le_length]
    rw [Elem.width_of_valid valid]
    simp
    omega
  · apply List.map_congr_left
    intro i _
    have past : (k + i) * e.bytes = a.toList.length + i * e.bytes := by
      simp [size, Nat.add_mul, Nat.mul_comm]
    have skipped : a.toList.drop (a.toList.length + i * e.bytes) = [] := by simp
    simp only [Function.comp_apply, readWord_eq, Array.toList_append, past, List.drop_append,
      Nat.add_sub_cancel_left, skipped, List.nil_append]

/-- A vector of one lane. -/
theorem lanes_single {e : Elem} (valid : e.valid = true) {v : Bytes} (size : v.size = e.bytes) :
    v.lanes e = [wordOf v.toList] := by
  have pos := Elem.bytes_pos valid
  have whole : v.toList.take e.bytes = v.toList := List.take_of_length_le (by simp [size])
  simp [lanes, size, Nat.div_self pos, readWord_eq, Elem.width_of_valid valid, whole]

/-- Lanes written to a vector and read again are cut to the range of a lane. -/
theorem lanes_ofLanes {e : Elem} (valid : e.valid = true) (xs : List UInt64) :
    (ofLanes e xs).lanes e = xs.map (· &&& e.mask) := by
  have width := Elem.width_of_valid valid
  induction xs with
  | nil => simp [ofLanes, lanes]
  | cons x xs ih =>
    have size : (ofLanes e [x]).size = e.bytes := by simp [size_ofLanes, width]
    have lane : wordOf (ofLanes e [x]).toList = x &&& e.mask := by
      apply UInt64.toNat_inj.mp
      simp only [ofLanes, List.flatMap_cons, List.flatMap_nil, List.append_nil]
      rw [toNat_wordOf_littleEndian _ _ (width ▸ Elem.bytes_le valid), width,
        Elem.range_of_valid valid, Elem.toNat_and_mask valid]
    rw [← List.singleton_append, ofLanes_append, lanes_append valid (size ▸ Nat.dvd_refl _), ih,
      lanes_single valid size, lane]
    rfl

/-- A vector of whole lanes is made of its lanes. -/
theorem ofLanes_lanes {e : Elem} (valid : e.valid = true) {v : Bytes} (whole : e.bytes ∣ v.size) :
    ofLanes e (v.lanes e) = v := by
  obtain ⟨k, size⟩ := whole
  induction k generalizing v with
  | zero =>
    have empty : v = #[] := by simpa using size
    simp [empty, lanes, ofLanes]
  | succ k ih =>
    have enough : e.bytes ≤ v.size := by rw [size]; exact Nat.le_mul_of_pos_right _ (by omega)
    have split : v.extract 0 e.bytes ++ v.extract e.bytes v.size = v := by
      simp [Nat.max_eq_right enough]
    have first : (v.extract 0 e.bytes).size = e.bytes := by simp; omega
    have rest : (v.extract e.bytes v.size).size = e.bytes * k := by
      simp [size, Nat.mul_succ]
    have one : ofLanes e [wordOf (v.extract 0 e.bytes).toList] = v.extract 0 e.bytes := by
      have back := littleEndian_wordOf (v.extract 0 e.bytes).toList
        (by rw [Array.length_toList, first]; exact Elem.bytes_le valid)
      rw [Array.length_toList, first] at back
      simp only [ofLanes, List.flatMap_cons, List.flatMap_nil, List.append_nil,
        Elem.width_of_valid valid, back]
    conv => lhs; rw [← split]
    rw [lanes_append valid (by simp [first]), lanes_single valid first, ofLanes_append, one,
      ih rest, split]

/-- Filling writes the lanes one after the other and leaves what stands around them. -/
theorem fill?_eq {e : Elem} (valid : e.valid = true) {f : Nat → Option UInt64} {g : Nat → UInt64}
    {i n : Nat} {v : Bytes} (inside : (i + n) * e.bytes ≤ v.size)
    (given : ∀ j, i ≤ j → j < i + n → f j = some (g j)) :
    fill? e f i n v = some (v.toList.take (i * e.bytes) ++
      ((List.range' i n).map g).flatMap (littleEndian e.width) ++
      v.toList.drop ((i + n) * e.bytes)).toArray := by
  have width := Elem.width_of_valid valid
  induction n generalizing i v with
  | zero => simp [fill?]
  | succ n ih =>
    have next : (i + 1) * e.bytes = i * e.bytes + (littleEndian e.width (g i)).length := by
      rw [length_littleEndian, width, Nat.succ_mul]
    have last : (i + 1) * e.bytes ≤ (i + 1 + n) * e.bytes := Nat.mul_le_mul_right _ (by omega)
    have order : i + (n + 1) = i + 1 + n := by omega
    rw [order] at inside ⊢
    have here : i * e.bytes + (littleEndian e.width (g i)).length ≤ v.size := by omega
    have stored : v.setLane? e i (g i) =
        some (v.write (i * e.bytes) (littleEndian e.width (g i))) := by
      rw [length_littleEndian] at here
      simp [setLane?, write?, here]
    rw [fill?, given i (by omega) (by omega)]
    simp only [Option.bind_eq_bind, Option.bind_some, stored]
    rw [ih (by rw [size_write]; exact inside) (fun j low high => given j (by omega) (by omega)),
      next, take_write v _ _ here, drop_write v _ _ _ here (by omega)]
    simp [List.range'_succ]

theorem fill?_zeros {e : Elem} (valid : e.valid = true) {f : Nat → Option UInt64}
    {g : Nat → UInt64} {size : Nat} (whole : e.bytes ∣ size)
    (given : ∀ j < size / e.bytes, f j = some (g j)) :
    fill? e f 0 (size / e.bytes) (zeros size) =
      some (ofLanes e ((List.range (size / e.bytes)).map g)) := by
  have filled : (0 + size / e.bytes) * e.bytes = size := by simp [Nat.div_mul_cancel whole]
  rw [fill?_eq valid (by simp [zeros, Nat.div_mul_cancel whole]) (fun j _ high => given j (by omega)),
    filled]
  simp [ofLanes, zeros, List.range_eq_range']

theorem lane?_eq {e : Elem} (valid : e.valid = true) {v : Bytes} {i : Nat}
    (inside : i < v.size / e.bytes) : v.lane? e i = some (v.readWord (i * e.bytes) e.width) := by
  have room : (i + 1) * e.bytes ≤ v.size := Nat.mul_le_of_le_div _ _ _ inside
  rw [Nat.succ_mul] at room
  simp [lane?, read?, Elem.width_of_valid valid, room]

theorem laneCount?_eq {e : Elem} (valid : e.valid = true) (v : Bytes) :
    v.laneCount? e = some (v.size / e.bytes) := by
  have pos := Elem.bytes_pos valid
  simp [laneCount?]
  omega

end Bytes

namespace Lanes

open Bytes

/-- The operations that pair the lanes of two vectors. -/
def paired : Op → Bool
  | .and | .ann | .orr | .orn | .xor | .not | .mov | .shl | .shr => false
  | _ => true

/-- A paired operation works lane by lane. -/
theorem eval?_paired {op : Op} (lanewise : paired op = true) {e : Elem} (valid : e.valid = true)
    {a b : Bytes} (whole : e.bytes ∣ a.size) (same : a.size = b.size) :
    eval? op e a b =
      some (ofLanes e (List.zipWith (Lane.eval op e) (a.lanes e) (b.lanes e))) := by
  have lanes : (List.range (a.size / e.bytes)).map (fun i => Lane.eval op e
      (a.readWord (i * e.bytes) e.width) (b.readWord (i * e.bytes) e.width)) =
      List.zipWith (Lane.eval op e) (a.lanes e) (b.lanes e) := by
    simp [Bytes.lanes, ← same, List.zipWith_map, List.zipWith_self]
  have filled : (a.laneCount? e).bind (fun n => fill? e (fun i => do
      let y ← b.lane? e i
      let x ← a.lane? e i
      return Lane.eval op e x y) 0 n (zeros a.size)) =
      some (ofLanes e (List.zipWith (Lane.eval op e) (a.lanes e) (b.lanes e))) := by
    rw [laneCount?_eq valid, Option.bind_some, ← lanes]
    apply fill?_zeros valid whole
    intro i inside
    simp [lane?_eq valid inside, lane?_eq valid (same ▸ inside)]
  cases op with
  | and | ann | orr | orn | xor | not | mov | shl | shr => simp [paired] at lanewise
  | _ => exact filled

/-- A shift by one count works lane by lane. -/
theorem shift?_eq (op : Op) {e : Elem} (valid : e.valid = true) {a : Bytes}
    (whole : e.bytes ∣ a.size) (n : UInt64) :
    shift? op e a n = some (ofLanes e ((a.lanes e).map (Lane.eval op e · n))) := by
  simp only [shift?, laneCount?_eq valid, Bytes.lanes, List.map_map]
  apply fill?_zeros valid whole
  intro i inside
  simp [lane?_eq valid inside]

/-- The complement of a vector is the complement of its lanes. -/
theorem complement_ofLanes {e : Elem} (valid : e.valid = true) (xs : List UInt64) :
    (ofLanes e xs).map (~~~·) = ofLanes e (xs.map (~~~·)) := by
  have short : e.width ≤ 8 := Elem.width_of_valid valid ▸ Elem.bytes_le valid
  induction xs with
  | nil => simp [ofLanes]
  | cons x xs ih =>
    rw [← List.singleton_append, ofLanes_append, Array.map_append, ih, List.map_append,
      ofLanes_append]
    congr 1
    simp [ofLanes, littleEndian_complement _ _ short]

/-- The lanes of a vector only matter modulo their range. -/
theorem ofLanes_congr {e : Elem} (valid : e.valid = true) {xs ys : List UInt64}
    (same : xs.map (· &&& e.mask) = ys.map (· &&& e.mask)) : ofLanes e xs = ofLanes e ys := by
  have back (zs : List UInt64) : ofLanes e ((ofLanes e zs).lanes e) = ofLanes e zs := by
    apply ofLanes_lanes valid
    rw [size_ofLanes, Elem.width_of_valid valid]
    exact Nat.dvd_mul_left ..
  rw [← back xs, ← back ys, lanes_ofLanes valid, lanes_ofLanes valid, same]

/-! ## Sizes of results -/

theorem size_fill? {e : Elem} {f : Nat → Option UInt64} {i n : Nat} {v w : Bytes}
    (filled : fill? e f i n v = some w) : w.size = v.size := by
  induction n generalizing i v with
  | zero =>
    cases filled
    rfl
  | succ n ih =>
    obtain ⟨x, _, rest⟩ := Option.bind_eq_some_iff.1 filled
    obtain ⟨u, set, rest⟩ := Option.bind_eq_some_iff.1 rest
    rw [ih rest]
    unfold setLane? write? at set
    split at set
    · cases set
      exact size_write ..
    · cases set

/-- The result of an operation has the size of its first source. -/
theorem size_eval? {op : Op} {e : Elem} {a b v : Bytes} (made : eval? op e a b = some v) :
    v.size = a.size := by
  have filled {f : Nat → Option UInt64} {n : Nat} (made : fill? e f 0 n (zeros a.size) = some v) :
      v.size = a.size := by
    rw [size_fill? made]
    simp [zeros]
  unfold eval? at made
  split at made
  case h_6 =>
    cases made
    simp
  case h_7 =>
    cases made
    simp [size_write, zeros]
  case h_8 | h_9 =>
    obtain ⟨n, _, rest⟩ := Option.bind_eq_some_iff.1 made
    obtain ⟨c, _, rest⟩ := Option.bind_eq_some_iff.1 rest
    exact filled rest
  case h_10 =>
    obtain ⟨n, _, rest⟩ := Option.bind_eq_some_iff.1 made
    exact filled rest
  all_goals
    split at made
    · cases made
      simp
      omega
    · cases made

theorem size_shift? {op : Op} {e : Elem} {a v : Bytes} {n : UInt64}
    (made : shift? op e a n = some v) : v.size = a.size := by
  obtain ⟨k, _, rest⟩ := Option.bind_eq_some_iff.1 made
  rw [size_fill? rest]
  simp [zeros]

theorem size_merge? {d s m v : Bytes} (made : merge? d s m = some v) : v.size = d.size := by
  unfold merge? at made
  split at made
  · next fits =>
    cases made
    simp only [Bool.and_eq_true, decide_eq_true_eq] at fits
    simp
    omega
  · cases made

end Lanes

end LaneAsm
