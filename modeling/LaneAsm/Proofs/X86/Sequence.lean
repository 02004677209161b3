import LaneAsm.Proofs.X86.Lane

/-!
What the short sequences do to a processor. Every instruction gets an equation for the state after
it, and a sequence leaves all but a few registers as they were (`Keeps`). The sequences on lanes
compute `Lane.eval` (`run_scalar`, `exec_shiftLane`).
-/
namespace LaneAsm.X86

open Lane

namespace State

@[simp] theorem setGpr_self (s : State) (r : RegNum) (x : UInt64) : (s.setGpr r x).gpr r = x :=
  if_pos rfl

@[simp] theorem compute_self (s : State) (r : RegNum) (x : UInt64) : (s.compute r x).gpr r = x :=
  if_pos rfl

theorem setGpr_of_ne {k r : RegNum} (other : k ≠ r) (s : State) (x : UInt64) :
    (s.setGpr r x).gpr k = s.gpr k := if_neg other

@[simp] theorem setVec_self (s : State) (r : RegNum) (v : Vector UInt8 32) :
    (s.setVec r v).vec r = v := if_pos rfl

theorem setVec_of_ne {k r : RegNum} (other : k ≠ r) (s : State) (v : Vector UInt8 32) :
    (s.setVec r v).vec k = s.vec k := if_neg other

theorem low_setVec (s : State) (r : RegNum) (v : Vector UInt8 32) (n : Nat) :
    (s.setVec r v).low r n = v.toArray.extract 0 n := by rw [low, setVec_self]

theorem size_low (s : State) (r : RegNum) {n : Nat} (fits : n ≤ 32) : (s.low r n).size = n := by
  simp [low, fits]

end State

/-- The second state has the registers of the first but for some general registers and the
temporary. -/
structure Keeps (free : List RegNum) (s t : State) : Prop where
  gpr : ∀ r, r ∉ free → t.gpr r = s.gpr r
  vec : ∀ r, r ≠ tmp → t.vec r = s.vec r

namespace Keeps

variable {free more : List RegNum} {s t v : State}

theorem refl (free : List RegNum) (s : State) : Keeps free s s := ⟨fun _ _ => rfl, fun _ _ => rfl⟩

theorem trans (first : Keeps free s t) (second : Keeps free t v) : Keeps free s v :=
  ⟨fun r other => (second.gpr r other).trans (first.gpr r other),
    fun r other => (second.vec r other).trans (first.vec r other)⟩

theorem mono (kept : Keeps free s t) (less : free ⊆ more) : Keeps more s t :=
  ⟨fun r other => kept.gpr r (fun mem => other (less mem)), kept.vec⟩

theorem setGpr {r : RegNum} (kept : Keeps free s t) (mem : r ∈ free) (x : UInt64) :
    Keeps free s (t.setGpr r x) := by
  refine ⟨fun k other => ?_, kept.vec⟩
  have apart : k ≠ r := fun same => other (same ▸ mem)
  exact (State.setGpr_of_ne apart t x).trans (kept.gpr k other)

theorem compute {r : RegNum} (kept : Keeps free s t) (mem : r ∈ free) (x : UInt64) :
    Keeps free s (t.compute r x) := ⟨(kept.setGpr mem x).gpr, kept.vec⟩

theorem flags (kept : Keeps free s t) (f : Option Flags) : Keeps free s { t with flags := f } :=
  ⟨kept.gpr, kept.vec⟩

theorem store (kept : Keeps free s t) (a : UInt64) (v : Bytes) : Keeps free s (t.store a v) :=
  ⟨kept.gpr, kept.vec⟩

theorem setVec (kept : Keeps free s t) (x : Vector UInt8 32) : Keeps free s (t.setVec tmp x) :=
  ⟨kept.gpr, fun k other => (State.setVec_of_ne other t x).trans (kept.vec k other)⟩

end Keeps

section
variable {u : VectorUnit} {short : Bool} {s : State} {e : Elem}

/-! ## Words -/

theorem exec_add (d r : RegNum) : s.exec u short (gpRegReg 0x01 (e.bits == 64) d r) =
    some (s.compute d (cut (wordBits e) (s.gpr d + s.gpr r))) := by
  unfold wordBits
  cases e.bits == 64 <;> rfl

theorem exec_sub (d r : RegNum) : s.exec u short (gpRegReg 0x29 (e.bits == 64) d r) =
    some (s.compute d (cut (wordBits e) (s.gpr d - s.gpr r))) := by
  unfold wordBits
  cases e.bits == 64 <;> rfl

theorem exec_mul : s.exec u short
    (.legacy ((Form.m0F 0xAF).sized (e.bits == 64)) rax (.reg rcx) []) =
      some (s.compute rax (cut (wordBits e) (s.gpr rax * cut (wordBits e) (s.gpr rcx)))) := by
  unfold wordBits
  cases e.bits == 64 <;> rfl

theorem exec_compare (d r : RegNum) : s.exec u short (gpRegReg 0x39 (e.bits == 64) d r) =
    some { s with flags := some (.compare (wordBits e) (s.gpr d) (s.gpr r)) } := by
  unfold wordBits
  cases e.bits == 64 <;> rfl

/-- A comparison, and a move where a condition holds. -/
theorem run_select {f : Form} {cc : Nat} (means : f.meaning? rax = some (.moveIf cc (wordBits e)))
    {b : Bool} (holds : (Flags.compare (wordBits e) (s.gpr rax) (s.gpr rcx)).holds? cc = some b) :
    s.Reaches u short [gpRegReg 0x39 (e.bits == 64) rax rcx, .legacy f rax (.reg rcx) []] fun t =>
      Keeps [rax, rcx] s t ∧ t.mem = s.mem ∧
        t.gpr rax = cut (wordBits e) (if b then s.gpr rcx else s.gpr rax) := by
  have moved (t : State)
      (compared : t.flags = some (.compare (wordBits e) (s.gpr rax) (s.gpr rcx))) :
      t.exec u short (.legacy f rax (.reg rcx) []) =
        some (t.setGpr rax (cut (wordBits e) (if b then t.gpr rcx else t.gpr rax))) := by
    have source : t.source? short (wordBits e) (.reg rcx) = some (cut (wordBits e) (t.gpr rcx)) :=
      if_neg (fun narrow => absurd narrow.2 (by decide))
    rw [State.exec, State.performLegacy, means]
    simp only [Option.bind_some, State.perform, compared, holds, source, Option.map_some]
    cases b <;> rfl
  refine .step (exec_compare rax rcx) (.step (moved _ rfl) (.done ⟨?_, rfl, State.setGpr_self ..⟩))
  exact ((Keeps.refl [rax, rcx] s).flags _).setGpr (by decide) _

/-- A comparison, and the lane of ones or zeros that a condition gives. -/
theorem run_condition {cc : UInt8} {n : Nat}
    (means : (Form.m0F (0x90 + cc)).meaning? 0 = some (.setIf n)) {b : Bool}
    (holds : (Flags.compare (wordBits e) (s.gpr rax) (s.gpr rcx)).holds? n = some b) :
    s.Reaches u short (gpRegReg 0x39 (e.bits == 64) rax rcx :: setLane (e.bits == 64) cc) fun t =>
      Keeps [rax, rcx] s t ∧ t.mem = s.mem ∧
        t.gpr rax = cut (wordBits e) (0 - UInt64.ofNat b.toNat) := by
  have first (t : State)
      (compared : t.flags = some (.compare (wordBits e) (s.gpr rax) (s.gpr rcx))) :
      t.exec u short (.legacy (.m0F (0x90 + cc)) 0 (.reg rax) []) =
        some (t.setGpr rax (UInt64.ofNat ((t.gpr rax).toNat / 256 * 256 + b.toNat))) := by
    rw [State.exec, State.performLegacy, means]
    simp only [Option.bind_some, State.perform, compared, holds]
    rfl
  have second (t : State) : t.exec u short (.legacy (.m0F 0xB6) rax (.reg rax) []) =
      some (t.setGpr rax (cut 8 (t.gpr rax))) := rfl
  have third (t : State) : t.exec u short (.legacy (.one 0xF7 (e.bits == 64)) 3 (.reg rax) []) =
      some (t.compute rax (cut (wordBits e) (0 - t.gpr rax))) := by
    unfold wordBits
    cases e.bits == 64 <;> rfl
  have byte : cut 8 (UInt64.ofNat ((s.gpr rax).toNat / 256 * 256 + b.toNat)) =
      UInt64.ofNat b.toNat := by
    have := b.toNat_lt
    have := (s.gpr rax).toNat_lt
    rw [← UInt64.toNat_inj, toNat_cut (by decide), UInt64.toNat_ofNat', UInt64.toNat_ofNat']
    omega
  refine .step (exec_compare rax rcx) (.step (first _ rfl) (.step (second _) (.step (third _)
    (.done ⟨?_, rfl, ?_⟩))))
  · exact ((((Keeps.refl _ s).flags _).setGpr (by decide) _).setGpr (by decide) _).compute
      (by decide) _
  · simp only [State.compute_self, State.setGpr_self, byte]

/-- Masking a count leaves it modulo the lane width. -/
theorem exec_mask (valid : e.valid = true) : s.exec u short (gpByte false 4 rcx (countMask e)) =
    some (s.compute rcx (UInt64.ofNat ((s.gpr rcx).toNat % e.bits))) := by
  have step : s.exec u short (gpByte false 4 rcx (countMask e)) = some (s.compute rcx
      (cut 32 (s.gpr rcx &&& UInt64.ofInt (signed 8 (countMask e).toUInt64)))) := rfl
  have masked {k : Nat} (small : k < 32) {v : UInt64} (ones : v.toNat = 2 ^ k - 1) :
      cut 32 (s.gpr rcx &&& v) = UInt64.ofNat ((s.gpr rcx).toNat % 2 ^ k) := by
    have bound : (s.gpr rcx).toNat % 2 ^ k < 2 ^ 32 :=
      Nat.lt_of_lt_of_le (Nat.mod_lt _ (Nat.two_pow_pos k))
        (Nat.pow_le_pow_right (by decide) (by omega))
    rw [cut, UInt64.toNat_and, ones, Nat.and_two_pow_sub_one_eq_mod, Nat.mod_eq_of_lt bound]
  refine step.trans (congrArg (fun x => some (s.compute rcx x)) ?_)
  rcases Elem.bits_of_valid valid with bits | bits | bits | bits <;> simp only [countMask, bits]
  · exact masked (k := 3) (by decide) (by decide)
  · exact masked (k := 4) (by decide) (by decide)
  · exact masked (k := 5) (by decide) (by decide)
  · exact masked (k := 6) (by decide) (by decide)

/-! ## Lanes -/

/-- After a state, one where `rax` ends in a lane and only the two general registers changed. -/
structure Computed (e : Elem) (s : State) (z : UInt64) (t : State) : Prop where
  keeps : Keeps [rax, rcx] s t
  mem : t.mem = s.mem
  lane : littleEndian e.bytes (t.gpr rax) = littleEndian e.bytes z

variable (valid : e.valid = true) (whole : e.isFloat = false)
include valid whole

/-- The lane in `rax` is shifted by the count in `rcx`. -/
theorem exec_shiftLane {op : Op} (shift : (op = .shl ∨ op = .svl) ∨ op = .shr ∨ op = .svr)
    {x n : UInt64} (lane : x.toNat < 2 ^ e.bits) (left : s.gpr rax = extend e x)
    (right : (s.gpr rcx).toNat = n.toNat % e.bits) :
    ∃ z, s.exec u short (shiftLane op e) = some (s.compute rax z) ∧
      littleEndian e.bytes z = littleEndian e.bytes (Lane.eval op e x n) := by
  have narrow : wordBits e ≤ 64 := by have := wordBits_eq e; omega
  have count : s.count (wordBits e) = n.toNat % e.bits := by
    rw [State.count, right]
    rcases Elem.bits_of_valid valid with bits | bits | bits | bits <;> simp [wordBits, bits] <;>
      omega
  rcases shift with shift | shift
  · refine ⟨cut (wordBits e) (UInt64.ofNat ((s.gpr rax).toNat * 2 ^ s.count (wordBits e))), ?_, ?_⟩
    · simp only [shiftLane, shift, ↓reduceIte, wordBits]
      cases e.bits == 64 <;> rfl
    · refine littleEndian_of_spells valid (spells_word valid ?_) (spells_left valid whole shift x n)
      rw [count, left]
      refine (spells_of_word valid (k := (extend e x).toNat * 2 ^ (n.toNat % e.bits)) ?_).trans ?_
      · rw [UInt64.toNat_ofNat']
        simp
      · rw [Int.mul_emod, spells_extend valid x, ← Int.mul_emod]
  · have other : ¬(op = .shl ∨ op = .svl) := by rcases shift with rfl | rfl <;> decide
    cases kind : e.isSigned with
    | true =>
      refine ⟨cut (wordBits e)
        (UInt64.ofInt (signed (wordBits e) (s.gpr rax) / 2 ^ s.count (wordBits e))), ?_, ?_⟩
      · simp only [shiftLane, other, kind, ↓reduceIte, wordBits]
        cases e.bits == 64 <;> rfl
      · refine littleEndian_of_spells valid (spells_word valid (spells_ofInt valid _)) ?_
        rw [count, left, signed_extend valid kind]
        exact spells_right valid whole shift x n
    | false =>
      refine ⟨UInt64.ofNat ((cut (wordBits e) (s.gpr rax)).toNat / 2 ^ s.count (wordBits e)),
        ?_, ?_⟩
      · simp only [shiftLane, other, kind, ↓reduceIte, wordBits]
        cases e.bits == 64 <;> rfl
      · refine littleEndian_of_spells valid (spells_of_word valid
          (k := value e x / 2 ^ (n.toNat % e.bits)) ?_) (spells_right valid whole shift x n)
        rw [count, left, toNat_cut narrow, ← toNat_extend valid kind lane, UInt64.toNat_ofNat']
        simp

/-- Two lanes are combined in `rax`. -/
theorem run_scalar {op : Op} (can : scalarOp op e = true) (each : op ≠ .shl ∧ op ≠ .shr)
    {x y : UInt64} (first : x.toNat < 2 ^ e.bits) (second : y.toNat < 2 ^ e.bits)
    (left : s.gpr rax = extend e x) (right : s.gpr rcx = extend e y) :
    ∃ is, scalar op e = .ok is ∧ s.Reaches u short is (Computed e s (Lane.eval op e x y)) := by
  have inX := spells_extend valid x
  have inY := spells_extend valid y
  have numX := inX.trans (spells_value e x)
  have numY := inY.trans (spells_value e y)
  have kept := Keeps.refl [rax, rcx] s
  -- what the compared words give is carried over to the lanes
  have of_word {is : List Insn} {z : UInt64} {k : Int} (spelled : Spells e z k)
      (eval : Spells e (Lane.eval op e x y) k)
      (ran : s.Reaches u short is fun t => Keeps [rax, rcx] s t ∧ t.mem = s.mem ∧
        t.gpr rax = cut (wordBits e) z) :
      s.Reaches u short is (Computed e s (Lane.eval op e x y)) := by
    obtain ⟨t, ran, keeps, mem, result⟩ := ran
    refine ⟨t, ran, keeps, mem, ?_⟩
    rw [result]
    exact littleEndian_of_spells valid (spells_word valid spelled) eval
  have of_condition (b : Bool) : Spells e (0 - UInt64.ofNat b.toNat) (if b then -1 else 0) := by
    cases b with
    | true => exact (spells_self e 0).sub valid (spells_self e 1)
    | false => exact (spells_self e 0).sub valid (spells_self e 0)
  have shifted (shift : (op = .shl ∨ op = .svl) ∨ op = .shr ∨ op = .svr) : s.Reaches u short
      [gpByte false 4 rcx (countMask e), shiftLane op e] (Computed e s (Lane.eval op e x y)) := by
    have count : (UInt64.ofNat ((s.gpr rcx).toNat % e.bits)).toNat = y.toNat % e.bits := by
      rw [right, ← toNat_extend_mod valid y, UInt64.toNat_ofNat']
      exact Nat.mod_eq_of_lt (Nat.lt_of_le_of_lt (Nat.mod_le _ _) (extend e y).toNat_lt)
    obtain ⟨z, step, result⟩ : ∃ z, (s.compute rcx _).exec u short (shiftLane op e) = _ ∧ _ :=
      exec_shiftLane valid whole shift first left count
    refine .step (exec_mask valid) (.step step (.done ⟨?_, rfl, ?_⟩))
    · exact (kept.compute (by decide) _).compute (by decide) _
    · rw [State.compute_self, result]
  cases op <;> simp only [scalarOp, whole, Bool.not_false, Bool.and_false, Bool.and_true,
    Bool.false_eq_true] at can
  case add =>
    refine ⟨_, rfl, of_word (inX.add valid inY) (spells_add valid whole x y)
      (.step (exec_add rax rcx) (.done ⟨kept.compute (by decide) _, rfl, ?_⟩))⟩
    rw [left, right]
    exact State.compute_self ..
  case sub =>
    refine ⟨_, rfl, of_word (inX.sub valid inY) (spells_sub valid whole x y)
      (.step (exec_sub rax rcx) (.done ⟨kept.compute (by decide) _, rfl, ?_⟩))⟩
    rw [left, right]
    exact State.compute_self ..
  case mul =>
    refine ⟨_, rfl, of_word (inX.mul valid (spells_word valid inY)) (spells_mul valid whole x y)
      (.step exec_mul (.done ⟨kept.compute (by decide) _, rfl, ?_⟩))⟩
    rw [left, right]
    exact State.compute_self ..
  case min =>
    have holds := holds_greater valid first second
    rw [← left, ← right] at holds
    refine ⟨_, rfl, of_word ?_ (spells_min valid whole x y) (run_select ?_ holds)⟩
    · rw [left, right]
      by_cases less : value e y < value e x
      · simpa [less, show min (value e x) (value e y) = value e y by omega] using numY
      · simpa [less, show min (value e x) (value e y) = value e x by omega] using numX
    · unfold wordBits
      cases e.isSigned <;> cases e.bits == 64 <;> rfl
  case max =>
    have holds := holds_less valid first second
    rw [← left, ← right] at holds
    refine ⟨_, rfl, of_word ?_ (spells_max valid whole x y) (run_select ?_ holds)⟩
    · rw [left, right]
      by_cases less : value e x < value e y
      · simpa [less, show max (value e x) (value e y) = value e y by omega] using numY
      · simpa [less, show max (value e x) (value e y) = value e x by omega] using numX
    · unfold wordBits
      cases e.isSigned <;> cases e.bits == 64 <;> rfl
  case ceq =>
    have holds := holds_equal valid first second
    rw [← left, ← right] at holds
    exact ⟨_, rfl, of_word (of_condition _) (spells_compare valid whole rfl x y)
      (run_condition rfl holds)⟩
  case cgt =>
    have holds := holds_greater valid first second
    rw [if_pos (by simpa using can), ← left, ← right] at holds
    exact ⟨_, rfl, of_word (of_condition _) (spells_compare valid whole rfl x y)
      (run_condition rfl holds)⟩
  case shl => exact absurd rfl each.1
  case shr => exact absurd rfl each.2
  case svl => exact ⟨_, rfl, shifted (.inl (.inr rfl))⟩
  case svr => exact ⟨_, rfl, shifted (.inr (.inr rfl))⟩

end

/-! ## Memory -/

section
variable {u : VectorUnit} {short : Bool} {s : State} {m : Mem} {a : UInt64}
  (found : s.address? short m = some a)
include found

theorem exec_loadLane {e : Elem} (valid : e.valid = true) (r : RegNum) :
    s.exec u short (loadLane e r m) =
      some (s.setGpr r (extend e (wordOf (s.mem.read a e.bytes).toList))) := by
  rcases Elem.bits_of_valid valid with bits | bits | bits | bits <;> cases kind : e.isSigned <;>
    simp [loadLane, State.exec, State.performLegacy, Form.meaning?, Form.one, Form.m0F, State.perform, State.source?,
      found, extend, bits, kind, Elem.bytes]

theorem exec_storeLane {e : Elem} (valid : e.valid = true) {r : RegNum} (low : r.val < 4) :
    s.exec u short (storeLane e m r) =
      some (s.store a (littleEndian e.bytes (s.gpr r)).toArray) := by
  have byte : ¬4 ≤ r.val := by omega
  rcases Elem.bits_of_valid valid with bits | bits | bits | bits <;>
    simp [storeLane, State.exec, State.performLegacy, Form.meaning?, Form.one, State.perform, Rm.mem?, found, bits, byte,
      Elem.bytes]

/-- The count register gets the first lane in memory, modulo the lane width. -/
theorem run_loadCount {e : Elem} (valid : e.valid = true) :
    s.Reaches u short (loadCount e m) fun t => Keeps [rcx] s t ∧ t.mem = s.mem ∧
      (t.gpr rcx).toNat = (wordOf (s.mem.read a e.bytes).toList).toNat % e.bits := by
  have valid' : Elem.valid ⟨Nat.min e.bits 32, .unsigned⟩ = true := by
    rcases Elem.bits_of_valid valid with bits | bits | bits | bits <;> rw [bits] <;> decide
  have part : Elem.bytes ⟨Nat.min e.bits 32, .unsigned⟩ ≤ e.bytes :=
    Nat.div_le_div_right (Nat.min_le_left ..)
  have first := toNat_wordOf_take (s.mem.read a e.bytes).toList
    (Elem.bytes ⟨Nat.min e.bits 32, .unsigned⟩) (by simpa using Elem.bytes_le valid)
  rw [Memory.toList_read_take s.mem a part] at first
  refine .step (exec_loadLane found valid' rcx) (.step (exec_mask valid) (.done ⟨?_, rfl, ?_⟩))
  · exact ((Keeps.refl _ s).setGpr (by decide) _).compute (by decide) _
  · have plain (x : UInt64) : extend ⟨Nat.min e.bits 32, .unsigned⟩ x = x :=
      if_neg (fun narrow => Bool.false_ne_true narrow.2)
    simp only [State.compute_self, State.setGpr_self, plain, first]
    rcases Elem.bits_of_valid valid with bits | bits | bits | bits <;>
      simp [Elem.bytes, bits] <;> omega

end

/-! ## Vectors -/

theorem extract_overlay (old : Vector UInt8 32) {b : Bytes} (fits : b.size ≤ 32) :
    (overlay old b).toArray.extract 0 b.size = b := by
  apply Array.ext
  · simp
    omega
  · intro i first second
    simp [overlay, second]

section
variable {u : VectorUnit} {cfg : Config} {short long : Bool}
  (vexes : long = true → vexed cfg = true) {s : State} {m : Mem} {a : UInt64}
  (found : s.address? short m = some a)
include vexes found

theorem exec_load (r : RegNum) : ∃ v, s.exec u short (load cfg long r m) = some (s.setVec r v) ∧
    v.toArray.extract 0 (vectorBytes long) = s.mem.read a (vectorBytes long) := by
  have kept (old : Vector UInt8 32) :
      (overlay old (s.mem.read a (vectorBytes long))).toArray.extract 0 (vectorBytes long) =
        s.mem.read a (vectorBytes long) := by
    have := extract_overlay old (b := s.mem.read a (vectorBytes long))
      (by simpa using vectorBytes_le long)
    rwa [Memory.size_read] at this
  cases vex : vexed cfg with
  | true =>
    refine ⟨_, ?_, kept (Vector.replicate 32 0)⟩
    simp [load, op2, vex, State.exec, State.performVex, Form.movupsLoad, Form.m0F, Form.meaning?,
      Rm.mem?, found]
  | false =>
    obtain rfl : long = false := by simpa [vex] using vexes
    refine ⟨_, ?_, kept (s.vec r)⟩
    simp [load, op2, vex, State.exec, State.performLegacy, State.perform, Form.movupsLoad, Form.m0F, Form.meaning?,
      Rm.mem?, found, vectorBytes]

theorem exec_store (r : RegNum) :
    s.exec u short (store cfg long m r) = some (s.store a (s.low r (vectorBytes long))) := by
  cases vex : vexed cfg with
  | true =>
    simp [store, op2, vex, State.exec, State.performVex, Form.movupsStore, Form.m0F, Form.meaning?,
      Rm.mem?, found]
  | false =>
    obtain rfl : long = false := by simpa [vex] using vexes
    simp [store, op2, vex, State.exec, State.performLegacy, State.perform, Form.movupsStore, Form.m0F, Form.meaning?,
      Rm.mem?, found, vectorBytes]

end

theorem exec_binary {u : VectorUnit} {short : Bool} {s : State} {m : Mem} {a : UInt64}
    (found : s.address? short m = some a) {op : Op} {e : Elem} (valid : e.valid = true)
    (whole : e.isFloat = false) {f : Form} {level : Level}
    (native : nativeForm? op e = some (f, level)) :
    s.exec u short (.vex f false tmp tmp (.mem m) []) = some (s.setVec tmp
      (overlay (.replicate 32 0) (u.binary f (s.low tmp 16) (s.mem.read a 16)))) := by
  have given : s.bytes? short (vectorBytes false) (.mem m) = some (s.mem.read a 16) := by
    rw [State.bytes?, found, Option.map_some]
    rfl
  have gives := give?_native u (s.low · 16) (s.low tmp 16) (s.mem.read a 16) valid whole native
  have can : f.aligned u true = false := aligned_native valid whole native u true
  exact State.exec_vex given (fun aligned => absurd aligned (by rw [can]; decide)) gives

theorem exec_shiftGroup {u : VectorUnit} {short : Bool} (s : State) (bits : Nat) (r : RegNum)
    (n : UInt8) : s.exec u short (.vex (.shiftGroup bits) false r tmp (.reg tmp) [n]) =
      some (s.setVec tmp (overlay (.replicate 32 0)
        (u.shift (.shiftGroup bits) r (s.low tmp 16) n))) := by
  have group : (Form.shiftGroup bits).isShiftGroup = true := by
    unfold Form.shiftGroup
    split
    · rfl
    split
    · rfl
    · rfl
  have plain : (Form.shiftGroup bits).meaning? r = none := by
    unfold Form.shiftGroup
    split
    · rfl
    split
    · rfl
    · rfl
  rw [State.exec, State.performVex, plain]
  simp only [group, if_true, Bool.false_eq_true, if_false]
  rfl

end LaneAsm.X86
