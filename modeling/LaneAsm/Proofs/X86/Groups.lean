import LaneAsm.Proofs.Splitting
import LaneAsm.Proofs.X86.Scratch

/-!
The steps of expansions. What lies in the slots is combined group by group in the first slot: in two
halves (`selects_halves`) or lane by lane (`selects_lanes`, `selects_shiftLanes`), and the results
of the groups together are the result on whole vectors.
-/
namespace LaneAsm

/-! ## Results of groups -/

namespace Bytes

variable {e : Elem} (valid : e.valid = true)
include valid

/-- A lane, as the word that its bytes spell. -/
theorem wordOf_extract (v : Bytes) (i : Nat) :
    wordOf (v.extract (i * e.bytes) (i * e.bytes + e.bytes)).toList =
      v.readWord (i * e.bytes) e.width := by
  rw [readWord_eq, Elem.width_of_valid valid, Array.toList_extract, List.extract_eq_take_drop]
  simp

theorem readWord_lt (v : Bytes) (o : Nat) : (v.readWord o e.width).toNat < 2 ^ e.bits := by
  have short : ((v.toList.drop o).take e.bytes).length ≤ e.bytes := List.length_take_le ..
  have word := wordOf_lt _ (Nat.le_trans short (Elem.bytes_le valid))
  rw [readWord_eq, Elem.width_of_valid valid, ← Elem.range_of_valid valid]
  exact Nat.lt_of_lt_of_le word (Nat.pow_le_pow_right (by decide) short)

theorem lane_of_read {m : X86.Memory} {base : UInt64} {size i : Nat} {v : Bytes}
    (staged : m.read base size = v) (fits : i * e.bytes + e.bytes ≤ size) :
    wordOf (m.read (base + UInt64.ofNat (i * e.bytes)) e.bytes).toList =
      v.readWord (i * e.bytes) e.width := by
  rw [← X86.Memory.read_part m base fits, staged, wordOf_extract valid]

theorem joined_lanes (f : Nat → UInt64) (n : Nat) :
    X86.joined (fun i => (littleEndian e.bytes (f i)).toArray) n =
      ofLanes e ((List.range n).map f) := by
  induction n with
  | zero => rfl
  | succ n ih =>
    rw [X86.joined, ih, List.range_succ, List.map_append, ofLanes_append]
    simp [ofLanes, Elem.width_of_valid valid]

end Bytes

/-- A shift takes its count from the first lane of its second source. -/
theorem Lanes.eval?_shift {op : Op} (shift : op = .shl ∨ op = .shr) {e : Elem}
    (valid : e.valid = true) (a : Bytes) {b : Bytes} (room : 8 ≤ b.size)
    (small : (wordOf (b.toList.take 8)).toNat < e.bits) :
    eval? op e a b = shift? op e a (wordOf (b.toList.take 8)) := by
  have first : b.lane? e 0 = some (wordOf (b.toList.take 8)) := by
    have pos := Elem.bytes_pos valid
    have eight := Elem.bytes_le valid
    have cut := toNat_wordOf_take (b.toList.take 8) e.bytes (List.length_take_le ..)
    rw [List.take_take, Nat.min_eq_left eight, Elem.range_of_valid valid,
      Nat.mod_eq_of_lt (Nat.lt_trans small Nat.lt_two_pow_self)] at cut
    rw [Bytes.lane?_eq valid (Nat.div_pos (by omega) pos), Bytes.readWord_eq,
      Elem.width_of_valid valid, Nat.zero_mul, List.drop_zero, UInt64.toNat_inj.mp cut]
  rcases shift with rfl | rfl <;>
    simp only [eval?, shift?, first, Option.bind_eq_bind, Option.bind_some]

theorem Lanes.shift?_congr {op : Op} (shift : op = .shl ∨ op = .shr) {e : Elem}
    (valid : e.valid = true) (whole : e.isFloat = false) {n m : UInt64}
    (same : n.toNat % e.bits = m.toNat % e.bits) (a : Bytes) :
    shift? op e a n = shift? op e a m := by
  simp only [shift?, Lane.eval_shift_congr valid whole shift same]

namespace X86

theorem splits_read (m : Memory) (a : UInt64) :
    Bytes.SplitsInto 16 (m.read a 32) (m.read (a + UInt64.ofNat (0 * 16)) 16)
      (m.read (a + UInt64.ofNat (1 * 16)) 16) :=
  ⟨by simpa using Memory.read_append m a 16 16, by simp, by simp⟩

theorem joined_two (result : Nat → Bytes) : joined result 2 = result 0 ++ result 1 := by
  simp [joined]

/-- After some memory, one where the first slot holds a value; nothing has changed outside the
scratch area. -/
structure InSlot (cfg : Config) (start : UInt64) (v : Bytes) (m m' : Memory) : Prop where
  value : m'.read start cfg.physBytes = v
  within : Memory.Within start (2 * cfg.physBytes) m m'

section
variable {u : VectorUnit} {cfg : Config} (ok : Expandable cfg) {s : State} {start : UInt64}
include ok

theorem InSlot.of_write {v : Bytes} (size : v.size = cfg.physBytes) (m : Memory) :
    InSlot cfg start v m (m.write start v) := by
  have bound := ok.physBytes_le
  refine ⟨?_, Memory.within_write m fun c inside => inside.mono (by omega)⟩
  rw [← size, Memory.read_write (by omega)]

theorem bytes_dvd_physBytes {e : Elem} (valid : e.valid = true) : e.bytes ∣ cfg.physBytes := by
  have eight := Elem.bytes_dvd valid
  rcases ok.width with width | ⟨width, _⟩ <;> rw [width] <;> exact Nat.dvd_trans eight (by decide)

omit ok in
theorem paired_of_scalarOp {op : Op} {e : Elem} (can : scalarOp op e = true)
    (each : op ≠ .shl ∧ op ≠ .shr) : Lanes.paired op = true := by
  cases op <;> simp_all [scalarOp, Lanes.paired]

omit ok in
theorem paired_of_nativeForm? {op : Op} {e : Elem} (whole : e.isFloat = false) {f : Form}
    {level : Level} (native : nativeForm? op e = some (f, level))
    (each : op ≠ .shl ∧ op ≠ .shr) : Lanes.paired op = true := by
  simp only [nativeForm?, whole, Bool.false_eq_true, ↓reduceIte] at native
  cases op <;> simp_all [Lanes.paired]

/-! ## Halves -/

/-- A vector instruction on the two halves of the first slot. -/
theorem selects_halves (area : Area cfg s start) (long : cfg.physBytes = 32) {insn : Int → Insn}
    (result : Nat → Bytes) {v : Bytes} (split : Bytes.SplitsInto 16 v (result 0) (result 1))
    (step : ∀ i < 2, ∀ t, Keeps [] s t →
      (∀ k n, i * 16 ≤ k → k + n ≤ 2 ^ 64 →
        t.mem.read (start + UInt64.ofNat k) n = s.mem.read (start + UInt64.ofNat k) n) →
      t.low tmp 16 = s.mem.read (start + UInt64.ofNat (i * 16)) 16 →
      t.exec u cfg.shortAddress (insn (i * 16 : Nat)) =
        some (t.setVec tmp (overlay (.replicate 32 0) (result i)))) :
    Selects u cfg.shortAddress (eachGroup ⟨.vector, cfg.physBytes, 16⟩ fun offset =>
        .emitAll [load cfg false tmp (cfg.slots.a.advance offset), insn offset,
          store cfg false (cfg.slots.a.advance offset) tmp]) s fun t =>
      Keeps [] s t ∧ InSlot cfg start v s.mem t.mem := by
  have two : cfg.physBytes / 16 = 2 := by rw [long]
  have sizes : ∀ i < 2, (result i).size = 16
    | 0, _ => split.low
    | 1, _ => split.high
  have narrow : false = true → vexed cfg = true := fun never => nomatch never
  have whole : v = joined result (cfg.physBytes / 16) := by rw [two, joined_two, split.joined]
  have size : v.size = cfg.physBytes := by
    rw [split.joined, Array.size_append, split.low, split.high, long]
  have stored (t : State) :
      Keeps [] s t ∧ t.mem = s.mem.write start (joined result (cfg.physBytes / 16)) →
        Keeps [] s t ∧ InSlot cfg start v s.mem t.mem := by
    rintro ⟨kept, mem⟩
    rw [mem, ← whole]
    exact ⟨kept, .of_write ok size s.mem⟩
  refine (selects_groups (g := 16) (by decide) (by rw [long]; decide) ok.physBytes_le (by decide)
    (by rwa [two]) fun i room t kept same => ?_).mono stored
  have below : i < 2 := by omega
  have found := (area.of_keeps ok kept (by simp)).slot ok (k := i * 16) (by omega)
  obtain ⟨w, loaded, bytes⟩ := exec_load (u := u) narrow found tmp
  have low : (t.setVec tmp w).low tmp 16 = s.mem.read (start + UInt64.ofNat (i * 16)) 16 := by
    rw [State.low_setVec, ← same _ _ (Nat.le_refl _) (by omega)]
    exact bytes
  have computed := step i below (t.setVec tmp w) (kept.setVec w) same low
  have back : ((t.setVec tmp w).setVec tmp (overlay (.replicate 32 0) (result i))).low tmp 16 =
      result i := by
    have kept := extract_overlay (.replicate 32 0) (b := result i) (by simp [sizes i below])
    rwa [sizes i below] at kept
  have stored := exec_store (u := u)
    (s := (t.setVec tmp w).setVec tmp (overlay (.replicate 32 0) (result i))) narrow found tmp
  refine .emitAll (.step loaded (.step computed (.step stored (.done ⟨?_, ?_⟩))))
  · exact (((Keeps.refl _ t).setVec _).setVec _).store ..
  · rw [State.store, show vectorBytes false = 16 from rfl, back]
    rfl

section
variable (area : Area cfg s start) (long : cfg.physBytes = 32) {e : Elem} (valid : e.valid = true)
include area long valid

/-- The two slots are combined in halves. -/
theorem selects_binaryHalves (whole : e.isFloat = false) {op : Op} (paired : Lanes.paired op = true)
    {f : Form} {level : Level} (native : nativeForm? op e = some (f, level)) {a b : Bytes}
    (first : s.mem.read start cfg.physBytes = a)
    (second : s.mem.read (start + UInt64.ofNat cfg.physBytes) cfg.physBytes = b) {v : Bytes}
    (value : Lanes.eval? op e a b = some v) :
    Selects u cfg.shortAddress (eachGroup ⟨.vector, cfg.physBytes, 16⟩ fun offset =>
      let a := cfg.slots.a.advance offset
      .emitAll [load cfg false tmp a, .vex f false tmp tmp (.mem (cfg.slots.b.advance offset)) [],
        store cfg false a tmp]) s fun t => Keeps [] s t ∧ InSlot cfg start v s.mem t.mem := by
  let x (i : Nat) : Bytes := s.mem.read (start + UInt64.ofNat (i * 16)) 16
  let y (i : Nat) : Bytes :=
    s.mem.read (start + UInt64.ofNat cfg.physBytes + UInt64.ofNat (i * 16)) 16
  have unshifted : op = .shl ∨ op = .shr → False := by rintro (rfl | rfl) <;> cases paired
  have half (i : Nat) : Lanes.eval? op e (x i) (y i) = some (u.binary f (x i) (y i)) :=
    u.binary_eq valid whole native (by simp [x]) (by simp [y]) fun shift => (unshifted shift).elim
  have sixteen : e.bytes ∣ 16 := Nat.dvd_trans (Elem.bytes_dvd valid) (by decide)
  have left : Bytes.SplitsInto 16 a (x 0) (x 1) := by
    rw [← first, long]
    exact splits_read s.mem start
  have right : Bytes.SplitsInto 16 b (y 0) (y 1) := by
    rw [← second, long]
    simpa [y, long] using splits_read s.mem (start + UInt64.ofNat cfg.physBytes)
  obtain ⟨_, _, low, high, split⟩ := Lanes.splits_paired left right paired valid sixteen v value
  rw [← Option.some.inj ((half 0).symm.trans low), ← Option.some.inj ((half 1).symm.trans high)]
    at split
  refine selects_halves ok area long (fun i => u.binary f (x i) (y i)) split
    fun i below t kept same low => ?_
  have found := (area.of_keeps ok kept (by simp)).second ok (k := i * 16) (by omega)
  rw [exec_binary found valid whole native, low, same _ _ (by omega) (by omega), UInt64.ofNat_add,
    ← UInt64.add_assoc]

/-- A shift of the first slot in halves, by an instruction that shifts the temporary. -/
theorem selects_shiftHalves {op : Op} {n : UInt64} {insn : Insn} (result : Bytes → Bytes)
    (half : ∀ x : Bytes, x.size = 16 → Lanes.shift? op e x n = some (result x))
    (step : ∀ t, Keeps [] s t →
      (∀ k n, cfg.physBytes ≤ k → k + n ≤ 2 ^ 64 →
        t.mem.read (start + UInt64.ofNat k) n = s.mem.read (start + UInt64.ofNat k) n) →
      t.exec u cfg.shortAddress insn =
        some (t.setVec tmp (overlay (.replicate 32 0) (result (t.low tmp 16)))))
    {a : Bytes} (staged : s.mem.read start cfg.physBytes = a) {v : Bytes}
    (value : Lanes.shift? op e a n = some v) :
    Selects u cfg.shortAddress (eachGroup ⟨.vector, cfg.physBytes, 16⟩ fun offset =>
      let a := cfg.slots.a.advance offset
      .emitAll [load cfg false tmp a, insn, store cfg false a tmp]) s fun t =>
      Keeps [] s t ∧ InSlot cfg start v s.mem t.mem := by
  let x (i : Nat) : Bytes := s.mem.read (start + UInt64.ofNat (i * 16)) 16
  have sixteen : e.bytes ∣ 16 := Nat.dvd_trans (Elem.bytes_dvd valid) (by decide)
  have halves : Bytes.SplitsInto 16 a (x 0) (x 1) := by
    rw [← staged, long]
    exact splits_read s.mem start
  obtain ⟨_, _, low, high, split⟩ := Lanes.splits_shift op valid halves sixteen n v value
  rw [← Option.some.inj ((half (x 0) (by simp [x])).symm.trans low),
    ← Option.some.inj ((half (x 1) (by simp [x])).symm.trans high)] at split
  refine selects_halves ok area long (fun i => result (x i)) split fun i below t kept same low => ?_
  rw [step t kept fun k n past fits => same k n (by omega) fits, low]

end

/-! ## Lanes -/

variable {e : Elem} (valid : e.valid = true) (whole : e.isFloat = false)
  (area : Area cfg s start)
include valid

/-- Groups that each write one lane. -/
theorem selects_laneGroups {free : List RegNum} {work : Int → Selection Unit} {f : Nat → UInt64}
    (step : ∀ i, i * e.bytes + e.bytes ≤ cfg.physBytes → ∀ t, Keeps free s t →
      (∀ k n, i * e.bytes ≤ k → k + n ≤ 2 ^ 64 →
        t.mem.read (start + UInt64.ofNat k) n = s.mem.read (start + UInt64.ofNat k) n) →
      Selects u cfg.shortAddress (work (i * e.bytes : Nat)) t fun v => Keeps free t v ∧
        v.mem = t.mem.write (start + UInt64.ofNat (i * e.bytes))
          (littleEndian e.bytes (f i)).toArray) :
    Selects u cfg.shortAddress (eachGroup ⟨.scalar, cfg.physBytes, e.bytes⟩ work) s fun t =>
      Keeps free s t ∧ InSlot cfg start
        (Bytes.ofLanes e ((List.range (cfg.physBytes / e.bytes)).map f)) s.mem t.mem := by
  have whole := bytes_dvd_physBytes ok valid
  have sizes (i : Nat) : (littleEndian e.bytes (f i)).toArray.size = e.bytes := by
    simp [length_littleEndian]
  refine Selects.mono (selects_groups (Elem.bytes_pos valid) whole ok.physBytes_le (by decide)
    (fun i _ => sizes i) step) fun t ⟨kept, mem⟩ => ⟨kept, ?_⟩
  rw [mem, Bytes.joined_lanes valid]
  refine .of_write ok ?_ s.mem
  rw [Bytes.size_ofLanes, List.length_map, List.length_range, Elem.width_of_valid valid,
    Nat.div_mul_cancel whole]

include whole area

/-- One lane of the first slot is combined with its neighbour in the second. -/
theorem selects_lane {op : Op} (can : scalarOp op e = true) (each : op ≠ .shl ∧ op ≠ .shr)
    {k : Nat} (inside : k < cfg.physBytes) {x y : UInt64}
    (first : wordOf (s.mem.read (start + UInt64.ofNat k) e.bytes).toList = x)
    (second : wordOf (s.mem.read (start + UInt64.ofNat (cfg.physBytes + k)) e.bytes).toList = y)
    (small : x.toNat < 2 ^ e.bits ∧ y.toNat < 2 ^ e.bits) :
    Selects u cfg.shortAddress (do
      let a := cfg.slots.a.advance k
      .emitAll [loadLane e rax a, loadLane e rcx (cfg.slots.b.advance k)]
      .emitAll (← .check (scalar op e))
      .emit (storeLane e a rax)) s fun t => Keeps [rax, rcx] s t ∧
        t.mem = s.mem.write (start + UInt64.ofNat k)
          (littleEndian e.bytes (Lane.eval op e x y)).toArray := by
  let s₁ := s.setGpr rax (extend e x)
  let s₂ := s₁.setGpr rcx (extend e y)
  have kept₁ : Keeps [rax, rcx] s s₁ := (Keeps.refl _ s).setGpr (by decide) _
  have kept₂ : Keeps [rax, rcx] s s₂ := kept₁.setGpr (by decide) _
  have load₁ : s.exec u cfg.shortAddress (loadLane e rax (cfg.slots.a.advance k)) = some s₁ := by
    rw [exec_loadLane (area.slot ok (by omega)) valid, first]
  have load₂ : s₁.exec u cfg.shortAddress (loadLane e rcx (cfg.slots.b.advance k)) = some s₂ := by
    rw [exec_loadLane ((area.of_keeps ok kept₁ (by decide)).second ok inside) valid]
    exact congrArg (fun z => some (s₁.setGpr rcx (extend e z))) second
  obtain ⟨is, given, v, ran, done⟩ := run_scalar (u := u) (s := s₂) valid whole can each small.1
    small.2 rfl rfl
  have kept := kept₂.trans done.keeps
  have found := (area.of_keeps ok kept (by decide)).slot ok (k := k) (by omega)
  have stored := exec_storeLane (u := u) found valid (r := rax) (by decide)
  refine Selects.bind (.emitAll (.step load₁ (.step load₂ (.done rfl)))) fun t same => ?_
  subst same
  refine Selects.check given (Selects.bind (.emitAll ⟨v, ran, rfl⟩) fun t same => ?_)
  subst same
  refine .emitAll (.step stored (.done ⟨kept.store .., ?_⟩))
  rw [State.store, done.lane, done.mem]
  rfl

/-- Lanes of the two slots are combined in the first one. -/
theorem selects_lanes {op : Op} (can : scalarOp op e = true) (each : op ≠ .shl ∧ op ≠ .shr)
    {a b : Bytes} (first : s.mem.read start cfg.physBytes = a)
    (second : s.mem.read (start + UInt64.ofNat cfg.physBytes) cfg.physBytes = b) {v : Bytes}
    (value : Lanes.eval? op e a b = some v) :
    Selects u cfg.shortAddress (eachGroup ⟨.scalar, cfg.physBytes, e.bytes⟩ fun offset => do
      let a := cfg.slots.a.advance offset
      .emitAll [loadLane e rax a, loadLane e rcx (cfg.slots.b.advance offset)]
      .emitAll (← .check (scalar op e))
      .emit (storeLane e a rax)) s fun t =>
      Keeps [rax, rcx] s t ∧ InSlot cfg start v s.mem t.mem := by
  have size_a : a.size = cfg.physBytes := first ▸ Memory.size_read ..
  have size_b : b.size = cfg.physBytes := second ▸ Memory.size_read ..
  have paired := paired_of_scalarOp can each
  let f (i : Nat) : UInt64 := Lane.eval op e (a.readWord (i * e.bytes) e.width)
    (b.readWord (i * e.bytes) e.width)
  have lanes : Lanes.eval? op e a b =
      some (Bytes.ofLanes e ((List.range (cfg.physBytes / e.bytes)).map f)) := by
    rw [Lanes.eval?_paired paired valid (size_a ▸ bytes_dvd_physBytes ok valid)
      (size_a.trans size_b.symm), Bytes.lanes, Bytes.lanes, size_a, size_b, List.zipWith_map,
      List.zipWith_self]
  obtain rfl := Option.some.inj (value.symm.trans lanes)
  refine selects_laneGroups ok valid fun i room t kept same => ?_
  have pos := Elem.bytes_pos valid
  have bound := ok.physBytes_le
  have left : wordOf (t.mem.read (start + UInt64.ofNat (i * e.bytes)) e.bytes).toList =
      a.readWord (i * e.bytes) e.width := by
    rw [same _ _ (Nat.le_refl _) (by omega), Bytes.lane_of_read valid first room]
  have right :
      wordOf (t.mem.read (start + UInt64.ofNat (cfg.physBytes + i * e.bytes)) e.bytes).toList =
        b.readWord (i * e.bytes) e.width := by
    rw [same _ _ (by omega) (by omega), UInt64.ofNat_add, ← UInt64.add_assoc,
      Bytes.lane_of_read valid second room]
  exact selects_lane ok valid whole (area.of_keeps ok kept (by decide)) can each (by omega) left
    right ⟨Bytes.readWord_lt valid .., Bytes.readWord_lt valid ..⟩

/-- Lanes of the first slot are shifted by the count in `rcx`. -/
theorem selects_shiftLanes {op : Op} (shift : op = .shl ∨ op = .shr) {n : UInt64}
    (count : (s.gpr rcx).toNat = n.toNat % e.bits) {a : Bytes}
    (staged : s.mem.read start cfg.physBytes = a) {v : Bytes}
    (value : Lanes.shift? op e a n = some v) :
    Selects u cfg.shortAddress (eachGroup ⟨.scalar, cfg.physBytes, e.bytes⟩ fun offset =>
      let a := cfg.slots.a.advance offset
      .emitAll [loadLane e rax a, shiftLane op e, storeLane e a rax]) s fun t =>
      Keeps [rax] s t ∧ InSlot cfg start v s.mem t.mem := by
  have size : a.size = cfg.physBytes := staged ▸ Memory.size_read ..
  let f (i : Nat) : UInt64 := Lane.eval op e (a.readWord (i * e.bytes) e.width) n
  have lanes : Lanes.shift? op e a n =
      some (Bytes.ofLanes e ((List.range (cfg.physBytes / e.bytes)).map f)) := by
    rw [Lanes.shift?_eq op valid (size ▸ bytes_dvd_physBytes ok valid), Bytes.lanes, size,
      List.map_map]
    rfl
  obtain rfl := Option.some.inj (value.symm.trans lanes)
  refine selects_laneGroups ok valid fun i room t kept same => ?_
  have pos := Elem.bytes_pos valid
  have bound := ok.physBytes_le
  have area_t {v : State} (further : Keeps [rax] t v) := (area.of_keeps ok (kept.trans further)
    (by decide)).slot ok (k := i * e.bytes) (by omega)
  let t₁ := t.setGpr rax (extend e (a.readWord (i * e.bytes) e.width))
  have kept₁ : Keeps [rax] t t₁ := (Keeps.refl _ t).setGpr (by decide) _
  have loaded : t.exec u cfg.shortAddress
      (loadLane e rax (cfg.slots.a.advance (i * e.bytes : Nat))) = some t₁ := by
    rw [exec_loadLane (area_t (Keeps.refl _ t)) valid, same _ _ (Nat.le_refl _) (by omega),
      Bytes.lane_of_read valid staged room]
  have held : (t₁.gpr rcx).toNat = n.toNat % e.bits :=
    (congrArg UInt64.toNat (kept.gpr rcx (by decide))).trans count
  obtain ⟨z, shifted, result⟩ : ∃ z, t₁.exec u cfg.shortAddress (shiftLane op e) = _ ∧ _ :=
    exec_shiftLane valid whole (shift.imp .inl .inl) (Bytes.readWord_lt valid ..)
      (State.setGpr_self ..) held
  have kept₂ := kept₁.compute (r := rax) (by decide) z
  have stored := exec_storeLane (u := u) (area_t kept₂) valid (r := rax) (by decide)
  refine .emitAll (.step loaded (.step shifted (.step stored (.done ⟨kept₂.store .., ?_⟩))))
  rw [State.store, State.compute_self, result]
  rfl

end

end X86

end LaneAsm
