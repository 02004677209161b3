import LaneAsm.Proofs.Halves

/-!
Vectors in two halves. Operations on lanes work on the two halves of a vector one by one
(`Lanes.splits_paired` and the lemmas after it), and so do whole instructions: where everything that
an instruction reads splits into halves, its value does too (`Instr.value?_splits`).
-/
namespace LaneAsm

/-- A vector made of two halves of `k` bytes. -/
structure Bytes.SplitsInto (k : Nat) (v lo hi : Bytes) : Prop where
  joined : v = lo ++ hi
  low : lo.size = k
  high : hi.size = k

/-- A value that, if it is there, is made of two halves that are there too. -/
def Splits (k : Nat) (v lo hi : Option Bytes) : Prop :=
  ∀ w, v = some w → ∃ a b, lo = some a ∧ hi = some b ∧ Bytes.SplitsInto k w a b

theorem Splits.bind {k : Nat} {v lo hi : Option Bytes} (split : Splits k v lo hi)
    {f g₀ g₁ : Bytes → Option Bytes}
    (rest : ∀ w a b, Bytes.SplitsInto k w a b → Splits k (f w) (g₀ a) (g₁ b)) :
    Splits k (v.bind f) (lo.bind g₀) (hi.bind g₁) := by
  intro w made
  obtain ⟨u, present, made⟩ := Option.bind_eq_some_iff.mp made
  obtain ⟨a, b, first, second, halves⟩ := split u present
  rw [first, second]
  exact rest u a b halves w made

namespace Lanes

open Bytes

section
variable {k : Nat} {x x₀ x₁ y y₀ y₁ : Bytes} (left : SplitsInto k x x₀ x₁)
  (right : SplitsInto k y y₀ y₁)
include left right

theorem splits_paired {op : Op} (lanewise : paired op = true) {e : Elem} (valid : e.valid = true)
    (whole : e.bytes ∣ k) : Splits k (eval? op e x y) (eval? op e x₀ y₀) (eval? op e x₁ y₁) := by
  intro w made
  have whole₀ : e.bytes ∣ x₀.size := left.low ▸ whole
  have whole₁ : e.bytes ∣ x₁.size := left.high ▸ whole
  have same₀ : x₀.size = y₀.size := left.low.trans right.low.symm
  have same₁ : x₁.size = y₁.size := left.high.trans right.high.symm
  obtain ⟨a, first, low⟩ := eval?_total valid whole₀ same₀ lanewise
  obtain ⟨b, second, high⟩ := eval?_total valid whole₁ same₁ lanewise
  refine ⟨a, b, first, second, ?_, low.trans left.low, high.trans left.high⟩
  have size : x.size = x₀.size + x₁.size := by rw [left.joined, Array.size_append]
  have size' : y.size = y₀.size + y₁.size := by rw [right.joined, Array.size_append]
  have lanes : List.zipWith (Lane.eval op e) (x.lanes e) (y.lanes e) =
      List.zipWith (Lane.eval op e) (x₀.lanes e) (y₀.lanes e) ++
        List.zipWith (Lane.eval op e) (x₁.lanes e) (y₁.lanes e) := by
    rw [left.joined, right.joined, lanes_append valid whole₀, lanes_append valid (same₀ ▸ whole₀),
      List.zipWith_append (by rw [length_lanes, length_lanes, same₀])]
  rw [eval?_paired lanewise valid whole₀ same₀] at first
  rw [eval?_paired lanewise valid whole₁ same₁] at second
  rw [eval?_paired lanewise valid (size ▸ Nat.dvd_add whole₀ whole₁) (by omega), lanes,
    ofLanes_append, Option.some.inj first, Option.some.inj second] at made
  exact (Option.some.inj made).symm

theorem splits_logic {op : Op} (logic : op.isLogic = true ∧ op ≠ .not) (e : Elem) :
    Splits k (eval? op e x y) (eval? op e x₀ y₀) (eval? op e x₁ y₁) := by
  have value {u v : Bytes} (same : u.size = v.size) :
      eval? op e u v = some (Array.zipWith (Lane.logicByte op) u v) := by
    cases op <;> simp_all [Op.isLogic, eval?]
  have same₀ : x₀.size = y₀.size := left.low.trans right.low.symm
  have same₁ : x₁.size = y₁.size := left.high.trans right.high.symm
  intro w made
  refine ⟨_, _, value same₀, value same₁, ?_, ?_, ?_⟩
  · rw [left.joined, right.joined, value (by simp [same₀, same₁])] at made
    rw [← Option.some.inj made, Array.zipWith_append same₀]
  · simp [left.low, right.low]
  · simp [left.high, right.high]

end

theorem splits_not {k : Nat} {x x₀ x₁ : Bytes} (halves : SplitsInto k x x₀ x₁) (e : Elem) :
    Splits k (eval? .not e x #[]) (eval? .not e x₀ #[]) (eval? .not e x₁ #[]) := by
  intro w made
  refine ⟨_, _, rfl, rfl, ?_, ?_, ?_⟩
  · rw [← Option.some.inj made, halves.joined, Array.map_append]
  · simp [halves.low]
  · simp [halves.high]

theorem splits_shift (op : Op) {e : Elem} (valid : e.valid = true) {k : Nat} {x x₀ x₁ : Bytes}
    (halves : SplitsInto k x x₀ x₁) (whole : e.bytes ∣ k) (n : UInt64) :
    Splits k (shift? op e x n) (shift? op e x₀ n) (shift? op e x₁ n) := by
  have whole₀ : e.bytes ∣ x₀.size := halves.low ▸ whole
  have whole₁ : e.bytes ∣ x₁.size := halves.high ▸ whole
  have size : x.size = x₀.size + x₁.size := by rw [halves.joined, Array.size_append]
  have kept {v : Bytes} (whole : e.bytes ∣ v.size) :
      (ofLanes e ((v.lanes e).map (Lane.eval op e · n))).size = v.size := by
    rw [size_ofLanes, List.length_map, length_lanes, Elem.width_of_valid valid,
      Nat.div_mul_cancel whole]
  intro w made
  refine ⟨_, _, shift?_eq op valid whole₀ n, shift?_eq op valid whole₁ n, ?_,
    (kept whole₀).trans halves.low, (kept whole₁).trans halves.high⟩
  rw [shift?_eq op valid (size ▸ Nat.dvd_add whole₀ whole₁)] at made
  rw [← Option.some.inj made, halves.joined, lanes_append valid whole₀, List.map_append,
    ofLanes_append]

theorem splits_merge {k : Nat} {d d₀ d₁ s s₀ s₁ m m₀ m₁ : Bytes} (dst : SplitsInto k d d₀ d₁)
    (src : SplitsInto k s s₀ s₁) (mask : SplitsInto k m m₀ m₁) :
    Splits k (merge? d s m) (merge? d₀ s₀ m₀) (merge? d₁ s₁ m₁) := by
  have value {d s m : Bytes} (first : d.size = s.size) (second : d.size = m.size) :
      merge? d s m = some (Array.zipWith (fun m x => (x.1 &&& m) ||| (x.2 &&& ~~~m)) m
        (Array.zip s d)) := by
    simp [merge?, ← first, ← second]
  intro w made
  refine ⟨_, _, value (dst.low.trans src.low.symm) (dst.low.trans mask.low.symm),
    value (dst.high.trans src.high.symm) (dst.high.trans mask.high.symm), ?_, ?_, ?_⟩
  · rw [dst.joined, src.joined, mask.joined, value (by simp [dst.low, dst.high, src.low, src.high])
      (by simp [dst.low, dst.high, mask.low, mask.high])] at made
    rw [← Option.some.inj made, Array.zip_append (src.low.trans dst.low.symm),
      Array.zipWith_append (by simp [mask.low, src.low, dst.low])]
  · simp [mask.low, src.low, dst.low]
  · simp [mask.high, src.high, dst.high]

end Lanes

/-! ## Masks -/

/-- A test on bytes that holds of a joined byte when it holds of both holds of joined vectors when it
holds of both. -/
private theorem all_zipWith {p : UInt8 → Bool} {f : UInt8 → UInt8 → UInt8}
    (both : ∀ x y, p (f x y) = (p x && p y)) {xs ys : List UInt8} (same : xs.length = ys.length) :
    (List.zipWith f xs ys).all p = (xs.all p && ys.all p) := by
  induction xs generalizing ys with
  | nil =>
    cases ys with
    | nil => rfl
    | cons y ys => cases same
  | cons x xs ih =>
    cases ys with
    | nil => cases same
    | cons y ys =>
      simp only [List.zipWith_cons_cons, List.all_cons, both, ih (Nat.succ.inj same)]
      cases p x <;> cases p y <;> simp

private theorem or_below (x y : UInt8) :
    decide (x ||| y < 0x80) = (decide (x < 0x80) && decide (y < 0x80)) := by
  rw [Bool.eq_iff_iff]
  simp only [decide_eq_true_eq, Bool.and_eq_true, UInt8.lt_iff_toNat_lt, UInt8.toNat_or]
  constructor
  · intro below
    exact ⟨Nat.lt_of_le_of_lt Nat.left_le_or below, Nat.lt_of_le_of_lt Nat.right_le_or below⟩
  · rintro ⟨left, right⟩
    exact Nat.or_lt_two_pow (n := 7) left right

private theorem and_above (x y : UInt8) :
    decide (0x80 ≤ x &&& y) = (decide (0x80 ≤ x) && decide (0x80 ≤ y)) := by
  rw [Bool.eq_iff_iff]
  simp only [decide_eq_true_eq, Bool.and_eq_true, UInt8.le_iff_toNat_le, UInt8.toNat_and]
  have top {k : Nat} (below : k < 2 ^ 8) (above : 2 ^ 7 ≤ k) : k.testBit 7 = true :=
    Nat.testBit_of_two_pow_le_and_two_pow_add_one_gt above below
  constructor
  · intro above
    exact ⟨Nat.le_trans above Nat.and_le_left, Nat.le_trans above Nat.and_le_right⟩
  · rintro ⟨left, right⟩
    refine Nat.ge_two_pow_of_testBit (i := 7) ?_
    rw [Nat.testBit_and, top x.toNat_lt left, top y.toNat_lt right]
    rfl

/-- A condition holds of the joined halves of a mask when it holds of the whole mask. -/
theorem MaskCond.holds_joined (c : MaskCond) {lo hi : Bytes} (same : lo.size = hi.size) :
    c.holds (Array.zipWith (Lane.logicByte (if c = .full then .and else .orr)) lo hi) =
      c.holds (lo ++ hi) := by
  have lists (p : UInt8 → Bool) {f : UInt8 → UInt8 → UInt8} (both : ∀ x y, p (f x y) = (p x && p y)) :
      (Array.zipWith f lo hi).all p = (lo ++ hi).all p := by
    rw [← Array.all_toList, ← Array.all_toList, Array.toList_zipWith, Array.toList_append,
      List.all_append, all_zipWith both (by simpa using same)]
  cases c with
  | none => exact lists _ or_below
  | full => exact lists _ and_above

/-! ## Instructions -/

namespace Instr

variable {L : Type}

/-- The element type whose lanes an instruction works on. -/
def elem? : Instr L → Option Elem
  | .arith _ e _ _ _ | .shift _ e _ _ _ | .shiftEach _ e _ _ _ | .compare _ e _ _ _ => some e
  | _ => none

/-- Where all that an instruction reads splits into halves, so does its value. -/
theorem value?_splits {i : Instr L} (formed : i.Formed) {k : Nat} (whole : 8 ∣ k)
    (valid : ∀ e, i.elem? = some e → e.valid = true) {r r₀ r₁ : Reader}
    (sources : ∀ o ∈ i.sources, Splits k (r.source o) (r₀.source o) (r₁.source o))
    (counts : ∀ e o n, r.count e o = some n → r₀.count e o = some n ∧ r₁.count e o = some n) :
    Splits k (i.value? r) (i.value? r₀) (i.value? r₁) := by
  have lane {e : Elem} (valid : e.valid = true) : e.bytes ∣ k :=
    Nat.dvd_trans (Elem.bytes_dvd valid) whole
  have paired {op : Op} {e : Elem} {s1 : Reg} {s2 : Operand} (lanewise : Lanes.paired op = true)
      (valid : e.valid = true)
      (first : Splits k (r.source (.reg s1)) (r₀.source (.reg s1)) (r₁.source (.reg s1)))
      (second : Splits k (r.source s2) (r₀.source s2) (r₁.source s2)) :
      Splits k (binary? r op e s1 s2) (binary? r₀ op e s1 s2) (binary? r₁ op e s1 s2) :=
    first.bind fun x x₀ x₁ left => second.bind fun y y₀ y₁ right =>
      Lanes.splits_paired left right lanewise valid (lane valid)
  cases i with
  | mov dst src =>
    cases dst with
    | reg d => exact sources src (by simp [Instr.sources])
    | _ =>
      intro w made
      cases made
  | logic op dst s1 s2 =>
    exact (sources (.reg s1) (by simp [Instr.sources])).bind fun x x₀ x₁ left =>
      (sources s2 (by simp [Instr.sources])).bind fun y y₀ y₁ right =>
        Lanes.splits_logic left right formed .u8
  | not dst src =>
    exact (sources (.reg src) (by simp [Instr.sources])).bind fun x x₀ x₁ halves =>
      Lanes.splits_not halves .u8
  | arith op e dst s1 s2 =>
    refine paired ?_ (valid e rfl) (sources (.reg s1) (by simp [Instr.sources]))
      (sources s2 (by simp [Instr.sources]))
    simp only [Formed, List.mem_cons, List.not_mem_nil, or_false] at formed
    rcases formed with rfl | rfl | rfl | rfl | rfl | rfl | rfl | rfl <;> rfl
  | shift op e dst src count =>
    intro w made
    obtain ⟨n, counted, made⟩ := Option.bind_eq_some_iff.mp made
    obtain ⟨first, second⟩ := counts e count n counted
    simp only [value?, first, second, Option.bind_some]
    exact (sources (.reg src) (by simp [Instr.sources])).bind
      (fun x x₀ x₁ halves => Lanes.splits_shift op (valid e rfl) halves (lane (valid e rfl)) n) w made
  | shiftEach op e dst s1 s2 =>
    refine paired ?_ (valid e rfl) (sources (.reg s1) (by simp [Instr.sources]))
      (sources s2 (by simp [Instr.sources]))
    rcases formed with rfl | rfl <;> rfl
  | compare op e dst s1 s2 =>
    exact paired (Lanes.paired_of_isCompare formed) (valid e rfl)
      (sources (.reg s1) (by simp [Instr.sources])) (sources s2 (by simp [Instr.sources]))
  | merge dst src =>
    exact (sources src (by simp [Instr.sources])).bind fun s s₀ s₁ source =>
      (sources (.reg dst) (by simp [Instr.sources])).bind fun d d₀ d₁ before =>
        (sources (.reg Reg.mask) (by simp [Instr.sources])).bind fun m m₀ m₁ mask =>
          Lanes.splits_merge before source mask
  | _ =>
    intro w made
    cases made

end Instr

namespace Capability

variable {cap : Capability} {i : Instr LabelRef}

theorem Accepts.valid (accepted : cap.Accepts i) : ∀ e, i.elem? = some e → e.valid = true := by
  intro e lanes
  have applies {op : Op} {e : Elem} (supported : cap.checkSupported op e = .ok ()) :
      e.valid = true := by
    unfold checkSupported at supported
    split at supported
    · cases supported
    · rename_i defined
      exact Op.valid_of_applies (by simpa using defined)
  cases i with
  | arith op e' dst s1 s2 | shift op e' dst src count | shiftEach op e' dst s1 s2 =>
    cases lanes
    exact applies accepted.1
  | compare c e' dst s1 s2 =>
    cases lanes
    exact (Route.defined_of_routed accepted.1).2
  | _ => cases lanes

/-- A half with primitives has its sources. -/
theorem half_of_lowerHalf {h : Nat} {ps : List Primitive} (made : cap.lowerHalf h i = .ok ps) :
    ∀ o ∈ i.sources, ∃ y, cap.config.half o h = .ok y := by
  intro o member
  cases i with
  | mov dst src =>
    cases dst with
    | reg d =>
      obtain ⟨_, _, made⟩ := bind_eq_ok.mp made
      obtain ⟨y, found, _⟩ := bind_eq_ok.mp made
      exact ⟨y, List.mem_singleton.mp member ▸ found⟩
    | _ => simp [Instr.sources] at member
  | logic op dst s1 s2 | arith op e dst s1 s2 | shiftEach op e dst s1 s2 | compare op e dst s1 s2 =>
    obtain ⟨y, found, _⟩ := bind_eq_ok.mp made
    rcases List.mem_cons.mp member with rfl | member
    · exact ⟨_, rfl⟩
    · exact ⟨y, List.mem_singleton.mp member ▸ found⟩
  | not dst src | shift op e dst src count =>
    obtain rfl := List.mem_singleton.mp member
    exact ⟨_, rfl⟩
  | merge dst src =>
    obtain ⟨y, found, _⟩ := bind_eq_ok.mp made
    rcases List.mem_cons.mp member with rfl | member
    · exact ⟨_, rfl⟩
    · rcases List.mem_cons.mp member with rfl | member
      · exact ⟨y, found⟩
      · obtain rfl := List.mem_singleton.mp member
        exact ⟨_, rfl⟩
  | _ => simp [Instr.sources] at member

end Capability

end LaneAsm
