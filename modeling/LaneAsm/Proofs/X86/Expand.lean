import LaneAsm.Proofs.X86.Groups

/-!
Expansions compute what the lanes of whole vectors give. The sources are staged side by side in the
scratch area (`run_stage`), combined there, and the result is loaded.
-/
namespace LaneAsm.X86

/-- The memory of the second state differs from that of the first at most in the scratch area and in
the sixteen bytes below the stack. -/
def Untouched (cfg : Config) (start : UInt64) (s t : State) : Prop :=
  ∀ c, ¬Inside start (2 * cfg.physBytes) c → ¬Inside (s.gpr rsp - 16) 16 c → t.mem c = s.mem c

/-- What a state delivers after an expansion: the value in the destination. Besides it only the
temporary has changed among the registers, and memory only in the scratch area and in the sixteen
bytes below the stack. -/
structure Delivered (cfg : Config) (s : State) (start : UInt64) (dst : RegNum) (v : Bytes)
    (t : State) : Prop where
  value : t.low dst cfg.physBytes = v
  gpr : ∀ r, t.gpr r = s.gpr r
  vec : ∀ r, r ≠ dst → r ≠ tmp → t.vec r = s.vec r
  mem : Untouched cfg start s t

/-- A general register other than the stack pointer has another number. -/
theorem baseNum_other {r : Reg} {k : RegNum} (found : baseNum r = .ok k) (other : r ≠ Reg.stack) :
    k ≠ rsp ∧ r.index ≠ Reg.stack.index := by
  obtain ⟨kind, index⟩ := r
  simp only [baseNum, number] at found
  split at found
  · next inside =>
    obtain ⟨rfl, least, greatest⟩ := inside
    have four : index ≠ 4 := fun same => other (by rw [same]; rfl)
    refine ⟨?_, four⟩
    rintro rfl
    have number : index.toNat = 4 := congrArg Fin.val (Except.ok.inj found)
    exact four (by omega)
  · cases found

/-- A memory operand keeps its address where only the stack pointer moves. -/
theorem address?_of_keeps {s t : State} (kept : Keeps [rsp] s t) {m : Mem}
    (base : m.base ≠ Reg.stack) (index : m.index ≠ some Reg.stack) (short : Bool) :
    t.address? short m = s.address? short m := by
  have same {r : Reg} (other : r ≠ Reg.stack) :
      (baseNum r).toOption.map t.gpr = (baseNum r).toOption.map s.gpr := by
    cases found : baseNum r with
    | error e => rfl
    | ok k =>
      have general : k ∉ [rsp] := by simpa using (baseNum_other found other).1
      exact congrArg some (kept.gpr k general)
  have indices : t.index? m = s.index? m := by
    cases given : m.index with
    | none => simp only [State.index?, given]
    | some r =>
      simp only [State.index?, given]
      exact same (by rintro rfl; exact index given)
  have bases := same base
  simp only [State.address?, indices]
  cases found : baseNum m.base with
  | error e => rfl
  | ok k =>
    simp only [found, Except.toOption, Option.map_some, Option.some.injEq] at bases
    simp only [Except.toOption, Option.bind_some, bases]

/-- The bytes of the second source of a vector operation. -/
def State.vector? (cfg : Config) (s : State) : Rm → Option Bytes
  | .reg r => some (s.low r cfg.physBytes)
  | .mem m => (s.address? cfg.shortAddress m).map fun a => s.mem.read a cfg.physBytes

/-- What is delivered after staging is delivered from the start. -/
theorem Delivered.of_keeps {cfg : Config} {s s₁ t : State} {start : UInt64} {dst : RegNum}
    {v : Bytes} (kept : Keeps [] s s₁) (staged : Untouched cfg start s s₁)
    (rest : Delivered cfg s₁ start dst v t) : Delivered cfg s start dst v t where
  value := rest.value
  gpr r := (rest.gpr r).trans (kept.gpr r (by simp))
  vec r other fixed := (rest.vec r other fixed).trans (kept.vec r fixed)
  mem c area below := by
    have below₁ : ¬Inside (s₁.gpr rsp - 16) 16 c := by rwa [kept.gpr rsp (by simp)]
    exact (rest.mem c area below₁).trans (staged c area below)

theorem read_staged (m : Memory) (start : UInt64) {a b : Bytes} {n : Nat} (first : a.size = n)
    (second : b.size = n) (small : n ≤ 32) : (m.write start (a ++ b)).read start n = a ∧
      (m.write start (a ++ b)).read (start + UInt64.ofNat n) n = b := by
  subst first
  have whole : (a ++ b).size ≤ 2 ^ 64 := by simp [second]; omega
  constructor
  · have part := Memory.read_write_part (m := m) (a := start) (k := 0) (n := a.size) whole (by simp)
    simpa using part
  · rw [Memory.read_write_part whole (by simp [second])]
    simp [second]

/-- How an operation is expanded: lane by lane, or in two halves by a form of its own, which came no
later than VEX. -/
inductive Expansion (cfg : Config) (op : Op) (e : Elem) (f : Form) : Plan → Prop where
  | lanes (can : scalarOp op e = true) : Expansion cfg op e f ⟨.scalar, cfg.physBytes, e.bytes⟩
  | halves (long : cfg.physBytes = 32) {level : Level}
    (native : nativeForm? op e = some (f, level)) (early : level ≤ Level.avx1) :
    Expansion cfg op e f ⟨.vector, cfg.physBytes, 16⟩

theorem Expansion.paired {cfg : Config} {op : Op} {e : Elem} {f : Form} {p : Plan}
    (plan : Expansion cfg op e f p) (whole : e.isFloat = false) (each : op ≠ .shl ∧ op ≠ .shr) :
    Lanes.paired op = true := by
  cases plan with
  | lanes can => exact paired_of_scalarOp can each
  | halves _ native _ => exact paired_of_nativeForm? whole native each

section
variable {u : VectorUnit} {cfg : Config} (ok : Expandable cfg) {s : State} {start : UInt64}
  (area : Area cfg s start)
include ok area

omit area in
theorem size_vector? {y : Rm} {b : Bytes} (given : s.vector? cfg y = some b) :
    b.size = cfg.physBytes := by
  cases y with
  | reg r =>
    obtain rfl := Option.some.inj given
    exact State.size_low s r ok.physBytes_le
  | mem m =>
    obtain ⟨a, _, rfl⟩ := Option.map_eq_some_iff.mp given
    exact Memory.size_read ..

/-- The sources of an operation are staged side by side. -/
theorem run_stage (x : RegNum) {y : Rm} {b : Bytes} (given : s.vector? cfg y = some b)
    (apart : ∀ m a, y = .mem m → s.address? cfg.shortAddress m = some a →
      Apart a cfg.physBytes start (2 * cfg.physBytes)) :
    s.Reaches u cfg.shortAddress (stage cfg x y) fun t => Keeps [] s t ∧
      t.mem = s.mem.write start (s.low x cfg.physBytes ++ b) := by
  have vexes := ok.vexed_of_wide
  have bound := ok.physBytes_le
  have store₁ := exec_store (u := u) vexes area.found x
  rw [ok.vectorBytes_wide] at store₁
  let s₁ := s.store start (s.low x cfg.physBytes)
  have found₂ : s₁.address? cfg.shortAddress cfg.slots.b =
      some (start + UInt64.ofNat (s.low x cfg.physBytes).size) := by
    rw [State.size_low s x bound]
    exact area.slot ok (by have := ok.width; omega)
  have joined {v : Bytes} (size : v.size = cfg.physBytes) :
      s₁.mem.write (start + UInt64.ofNat (s.low x cfg.physBytes).size) v =
        s.mem.write start (s.low x cfg.physBytes ++ v) :=
    Memory.write_append (by rw [State.size_low s x bound]; omega)
  cases y with
  | reg r =>
    obtain rfl := Option.some.inj given
    have store₂ := exec_store (u := u) vexes found₂ r
    rw [ok.vectorBytes_wide] at store₂
    refine .step store₁ (.step store₂ (.done ⟨((Keeps.refl _ s).store ..).store .., ?_⟩))
    exact joined (State.size_low s r bound)
  | mem m =>
    obtain ⟨a, found, rfl⟩ := Option.map_eq_some_iff.mp given
    have staged : Memory.Within start (2 * cfg.physBytes) s.mem s₁.mem :=
      Memory.within_write _ fun c inside => inside.mono (by rw [State.size_low s x bound]; omega)
    obtain ⟨w, loaded, bytes⟩ := exec_load (u := u) (s := s₁) vexes found tmp
    rw [ok.vectorBytes_wide, staged.read (apart m a rfl found) (by omega)] at bytes
    have store₂ := exec_store (u := u) (s := s₁.setVec tmp w) vexes found₂ tmp
    rw [ok.vectorBytes_wide, State.low_setVec, bytes] at store₂
    refine .step store₁ (.step loaded (.step store₂ (.done ⟨?_, ?_⟩)))
    · exact (((Keeps.refl _ s).store ..).setVec _).store ..
    · exact joined (Memory.size_read ..)

/-- The result is loaded from the first slot. -/
theorem selects_loaded {x : Selection Unit} (dst : RegNum) {v : Bytes}
    (computed : Selects u cfg.shortAddress x s fun t => Keeps [] s t ∧
      t.mem.read start cfg.physBytes = v ∧ Untouched cfg start s t) :
    Selects u cfg.shortAddress (x >>= fun _ => .emit (load cfg (wide cfg) dst cfg.slots.a)) s
      (Delivered cfg s start dst v) := by
  refine computed.bind fun t ⟨kept, value, mem⟩ => ?_
  obtain ⟨w, loaded, bytes⟩ := exec_load (u := u) ok.vexed_of_wide
    (area.of_keeps ok kept (by simp)).found dst
  rw [ok.vectorBytes_wide, value] at bytes
  refine .emitAll (.step loaded (.done ⟨?_, ?_, fun r other fixed => ?_, mem⟩))
  · rw [State.low_setVec, bytes]
  · exact fun r => kept.gpr r (by simp)
  · rw [State.setVec_of_ne other, kept.vec r fixed]

/-- The same where the groups themselves leave the stack alone, after some staging. -/
theorem selects_loaded_slot {s₀ : State} (kept : Keeps [] s₀ s) (staged : Untouched cfg start s₀ s)
    {x : Selection Unit} (dst : RegNum) {v : Bytes}
    (computed : Selects u cfg.shortAddress x s fun t => Keeps [] s t ∧
      InSlot cfg start v s.mem t.mem) :
    Selects u cfg.shortAddress (x >>= fun _ => .emit (load cfg (wide cfg) dst cfg.slots.a)) s
      (Delivered cfg s₀ start dst v) := by
  refine (selects_loaded ok area dst (computed.mono fun t ⟨kept, slot⟩ => ?_)).mono
    fun t => Delivered.of_keeps kept staged
  exact ⟨kept, slot.value, fun c outside _ => slot.within c outside⟩

section
variable (stack : Apart (s.gpr rsp - 16) 16 start (2 * cfg.physBytes)) {e : Elem}
  (valid : e.valid = true) (whole : e.isFloat = false)
include stack valid whole

/-- An expanded operation on two sources. -/
theorem selects_expand {op : Op} (each : op ≠ .shl ∧ op ≠ .shr) {p : Plan} {f : Form}
    (plan : Expansion cfg op e f p) (dst x : RegNum) {y : Rm} {b : Bytes}
    (given : s.vector? cfg y = some b)
    (apart : ∀ m a, y = .mem m → s.address? cfg.shortAddress m = some a →
      Apart a cfg.physBytes start (2 * cfg.physBytes))
    {v : Bytes} (value : Lanes.eval? op e (s.low x cfg.physBytes) b = some v) :
    Selects u cfg.shortAddress (expand cfg p op e f dst x y) s (Delivered cfg s start dst v) := by
  have bound := ok.physBytes_le
  have size_a := State.size_low s x bound
  have size_b := size_vector? ok given
  have stages : s.Reaches u cfg.shortAddress (stage cfg x y) fun t => Keeps [] s t ∧
      Memory.Within start (2 * cfg.physBytes) s.mem t.mem ∧
      t.mem.read start cfg.physBytes = s.low x cfg.physBytes ∧
      t.mem.read (start + UInt64.ofNat cfg.physBytes) cfg.physBytes = b := by
    obtain ⟨t, ran, kept, mem⟩ := run_stage (u := u) ok area x given apart
    refine ⟨t, ran, kept, ?_, ?_⟩ <;> rw [mem]
    · refine Memory.within_write _ fun c inside => inside.mono ?_
      rw [Array.size_append, size_a, size_b]
      omega
    · exact read_staged s.mem start size_a size_b bound
  have paired := plan.paired whole each
  cases plan with
  | lanes can =>
    refine Selects.bind (.emitAll stages) fun s₁ ⟨kept, within, first, second⟩ => ?_
    have area₁ := area.of_keeps ok kept (by simp)
    have stack₁ : Apart (s₁.gpr rsp - 16) 16 start (2 * cfg.physBytes) := by
      rwa [kept.gpr rsp (by simp)]
    refine Selects.mono (selects_loaded ok area₁ dst (selects_around stack₁
      (fun m => m.read start cfg.physBytes = v) fun s₂ saved below => ?_))
      fun t => Delivered.of_keeps kept fun c outside _ => within c outside
    have same (k : Nat) (fits : k + cfg.physBytes ≤ 2 * cfg.physBytes) :
        s₂.mem.read (start + UInt64.ofNat k) cfg.physBytes =
          s₁.mem.read (start + UInt64.ofNat k) cfg.physBytes :=
      below.read (stack₁.symm.part fits) (by omega)
    have first₂ : s₂.mem.read start cfg.physBytes = s.low x cfg.physBytes := by
      simpa [first] using same 0 (by omega)
    have second₂ := (same cfg.physBytes (by omega)).trans second
    have area₂ := area₁.of_keeps ok saved (by decide)
    exact (selects_lanes ok valid whole area₂ can each first₂ second₂ value).mono
      fun t ⟨kept, slot⟩ => ⟨kept, slot.within, slot.value⟩
  | halves long native _ =>
    refine Selects.bind (.emitAll stages) fun s₁ ⟨kept, within, first, second⟩ => ?_
    have area₁ := area.of_keeps ok kept (by simp)
    exact selects_loaded_slot ok area₁ kept (fun c outside _ => within c outside) dst
      (selects_binaryHalves ok area₁ long valid whole paired native first second value)

/-! ## Shifts by one count -/

/-- A count is, modulo the lane width, what an expansion is given: an immediate below the width, or
the first lane of a memory operand away from scratch memory and the stack. -/
def Counts (cfg : Config) (s : State) (start : UInt64) (e : Elem) (n : UInt64) : Count → Prop
  | .imm k => k.toNat = n.toNat % e.bits
  | .mem m => ∃ a, s.address? cfg.shortAddress m = some a ∧
    wordOf (s.mem.read a e.bytes).toList = n ∧ m.base ≠ Reg.stack ∧ m.index ≠ some Reg.stack ∧
    Apart a e.bytes start (2 * cfg.physBytes) ∧ Apart a e.bytes (s.gpr rsp - 16) 16

omit ok area stack whole in
/-- The count register gets the count. -/
theorem run_count {n : UInt64} {count : Count} (given : Counts cfg s start e n count) {t : State}
    (kept : Keeps [rsp] s t) (mem : Untouched cfg start s t) :
    t.Reaches u cfg.shortAddress (match (motive := Count → List Insn) count with
      | .imm k => [.movImm rcx k.toUInt32]
      | .mem m => loadCount e m) fun w => Keeps [rcx] t w ∧ w.mem = t.mem ∧
        (w.gpr rcx).toNat = n.toNat % e.bits := by
  cases count with
  | imm k =>
    refine .step rfl (.done ⟨(Keeps.refl _ t).setGpr (by decide) _, rfl, ?_⟩)
    rw [State.setGpr_self, ← given]
    simp
  | mem m =>
    obtain ⟨a, found, word, base, index, away, below⟩ := given
    rw [← address?_of_keeps kept base index] at found
    have same : t.mem.read a e.bytes = s.mem.read a e.bytes :=
      Memory.read_congr (by have := Elem.bytes_le valid; omega)
        fun c inside => mem c (away c inside) (below c inside)
    have loaded := run_loadCount (u := u) found valid
    rwa [same, word] at loaded

omit area stack whole in
/-- A count from memory is parked in the second slot, with its register saved meanwhile. -/
theorem run_park {s₁ : State} (area : Area cfg s₁ start)
    (stack : Apart (s₁.gpr rsp - 16) 16 start (2 * cfg.physBytes)) {n : UInt64} {m : Mem}
    (given : Counts cfg s start e n (.mem m)) (kept : Keeps [] s s₁)
    (mem : Untouched cfg start s s₁) :
    s₁.Reaches u cfg.shortAddress
      ([.push rcx] ++ loadCount e m ++ [storeLane .u64 cfg.slots.b rcx, .pop rcx]) fun t =>
      Keeps [] s₁ t ∧ Untouched cfg start s₁ t ∧
        t.mem.read start cfg.physBytes = s₁.mem.read start cfg.physBytes ∧
        (wordOf ((t.mem.read (start + UInt64.ofNat cfg.physBytes) 16).toList.take 8)).toNat =
          n.toNat % e.bits := by
  have bound := ok.physBytes_le
  have wide : 16 ≤ cfg.physBytes := by have := ok.width; omega
  let w := s₁.pushed rcx
  have top : s₁.gpr rsp - 8 = s₁.gpr rsp - 16 + UInt64.ofNat 8 := sub_eight _
  have pushed : Memory.Within (s₁.gpr rsp - 16) 16 s₁.mem w.mem := by
    refine Memory.within_write _ fun c inside => ?_
    rw [top] at inside
    exact inside.of_offset (by simp [length_littleEndian])
  have untouched : Untouched cfg start s w := fun c outside below => by
    have below₁ : ¬Inside (s₁.gpr rsp - 16) 16 c := by rwa [kept.gpr rsp (by simp)]
    exact (pushed c below₁).trans (mem c outside below)
  obtain ⟨w₁, ran, counted, mem₁, held⟩ := run_count (u := u) valid given
    ((kept.mono (by simp)).trans (Keeps.pushed s₁ rcx)) untouched
  have area₁ := (area.of_keeps ok (Keeps.pushed s₁ rcx) (by decide)).of_keeps ok counted (by decide)
  have stored := exec_storeLane (u := u) (e := .u64) (area₁.slot ok (k := cfg.physBytes) (by omega))
    (by decide) (r := rcx) (by decide)
  let parked := (littleEndian 8 (w₁.gpr rcx)).toArray
  let w₂ := w₁.store (start + UInt64.ofNat cfg.physBytes) parked
  have length : parked.size = 8 := by simp [parked, length_littleEndian]
  have mem₂ : w₂.mem = w.mem.write (start + UInt64.ofNat cfg.physBytes) parked :=
    congrArg (Memory.write · _ _) mem₁
  have inside : Memory.Within start (2 * cfg.physBytes) w.mem w₂.mem := by
    rw [mem₂]
    exact Memory.within_write _ fun c part => part.of_offset (by omega)
  let after (m : Memory) : Prop :=
    (∀ c, ¬Inside start (2 * cfg.physBytes) c → ¬Inside (s₁.gpr rsp - 16) 16 c → m c = s₁.mem c) ∧
      m.read start cfg.physBytes = s₁.mem.read start cfg.physBytes ∧
      (wordOf ((m.read (start + UInt64.ofNat cfg.physBytes) 16).toList.take 8)).toNat =
        n.toNat % e.bits
  have finished : after w₂.mem := by
    refine ⟨fun c outside below => (inside c outside).trans (pushed c below), ?_, ?_⟩
    · have before : w₂.mem.read start cfg.physBytes = w.mem.read start cfg.physBytes := by
        rw [mem₂]
        refine Memory.read_congr (by omega) fun c first => Memory.write_outside fun second => ?_
        exact apart_next start (by omega) c first second
      exact before.trans (pushed.read (stack.symm.mono (by omega) (by omega)) (by omega))
    · have read := Memory.read_write (m := w.mem) (a := start + UInt64.ofNat cfg.physBytes)
        (v := parked) (by omega)
      rw [length] at read
      rw [Memory.toList_read_take _ _ (by decide), mem₂, read, ← held]
      exact congrArg UInt64.toNat (wordOf_littleEndian _)
  have kept₂ : Keeps [rcx] w w₂ := counted.store ..
  have saved : w₂.mem.read (s₁.gpr rsp - 8) 8 = w.mem.read (s₁.gpr rsp - 8) 8 := by
    rw [top]
    exact inside.read (stack.part (by decide)) (by decide)
  have work : w.Reaches u cfg.shortAddress (loadCount e m ++ [storeLane .u64 cfg.slots.b rcx])
      fun t => Keeps [rcx] w t ∧ t.mem.read (s₁.gpr rsp - 8) 8 = w.mem.read (s₁.gpr rsp - 8) 8 ∧
        after t.mem := by
    refine State.Reaches.append ⟨w₁, ran, rfl⟩ fun t same => ?_
    subst same
    exact .step stored (.done ⟨kept₂, saved, finished⟩)
  exact reaches_saved [] rcx after (by decide) (by decide) work

/-- An expanded shift by one count. -/
theorem selects_expandShift {op : Op} (shift : op = .shl ∨ op = .shr) {p : Plan}
    (plan : Expansion cfg op e (nativeForm op e) p) (dst x : RegNum) {n : UInt64} {count : Count}
    (given : Counts cfg s start e n count) {v : Bytes}
    (value : Lanes.shift? op e (s.low x cfg.physBytes) n = some v) :
    Selects u cfg.shortAddress (expandShift cfg p op e dst x count) s
      (Delivered cfg s start dst v) := by
  have bound := ok.physBytes_le
  have size := State.size_low s x bound
  have stored := exec_store (u := u) ok.vexed_of_wide area.found x
  rw [ok.vectorBytes_wide] at stored
  let s₁ := s.store start (s.low x cfg.physBytes)
  have kept : Keeps [] s s₁ := (Keeps.refl _ s).store ..
  have slot : InSlot cfg start (s.low x cfg.physBytes) s.mem s₁.mem := .of_write ok size s.mem
  have area₁ := area.of_keeps ok kept (by simp)
  have stack₁ : Apart (s₁.gpr rsp - 16) 16 start (2 * cfg.physBytes) := stack
  have staged : s.Reaches u cfg.shortAddress [store cfg (wide cfg) cfg.slots.a x] (· = s₁) :=
    .step stored (.done rfl)
  cases plan with
  | lanes can =>
    refine Selects.bind (.emitAll staged) fun t same => ?_
    subst same
    refine Selects.mono (selects_loaded ok area₁ dst (selects_around stack₁
      (fun m => m.read start cfg.physBytes = v) fun s₂ saved below => ?_))
      fun t => Delivered.of_keeps kept fun c outside _ => slot.within c outside
    have untouched : Untouched cfg start s s₂ :=
      fun c outside beyond => (below c beyond).trans (slot.within c outside)
    have first : s₂.mem.read start cfg.physBytes = s.low x cfg.physBytes :=
      (below.read (stack₁.symm.mono (by omega) (by omega)) (by omega)).trans slot.value
    have counts := run_count (u := u) valid given ((kept.mono (by simp)).trans saved) untouched
    refine Selects.bind (.emitAll counts) fun s₃ ⟨counted, mem, held⟩ => ?_
    have area₃ := (area₁.of_keeps ok saved (by decide)).of_keeps ok counted (by decide)
    rw [← mem] at first ⊢
    refine (selects_shiftLanes ok valid whole area₃ shift held first value).mono
      fun t ⟨further, result⟩ => ?_
    exact ⟨(counted.mono (by decide)).trans (further.mono (by decide)), result.within, result.value⟩
  | halves long native _ =>
    refine Selects.bind (.emitAll staged) fun t same => ?_
    subst same
    have nothing : s₁.Reaches u cfg.shortAddress [] (· = s₁) := .done rfl
    cases count with
    | imm k =>
      refine Selects.bind (.emitAll nothing) fun t same => ?_
      subst same
      have masked : k.toNat = n.toNat % e.bits := given
      have small : k.toNat < e.bits := masked ▸ Nat.mod_lt _ (Elem.bits_pos valid)
      refine selects_loaded_slot ok area₁ kept (fun c outside _ => slot.within c outside) dst
        (selects_shiftHalves ok area₁ long valid
          (fun x => u.shift (.shiftGroup e.bits) (shiftDigit op e) x k) (fun x size => ?_)
          (fun t _ _ => exec_shiftGroup ..) slot.value value)
      rw [← u.shift_eq shift valid whole (by rw [native]; rfl) size small]
      exact Lanes.shift?_congr shift valid whole
        (by rw [UInt8.toNat_toUInt64, masked, Nat.mod_mod]) x
    | mem m =>
      refine Selects.bind (.emitAll (run_park ok valid area₁ stack₁ given kept
        fun c outside _ => slot.within c outside)) fun s₂ ⟨kept₂, untouched, first, parked⟩ => ?_
      have area₂ := area₁.of_keeps ok kept₂ (by simp)
      let q := s₂.mem.read (start + UInt64.ofNat cfg.physBytes) 16
      have small : (wordOf (q.toList.take 8)).toNat < e.bits :=
        parked ▸ Nat.mod_lt _ (Elem.bits_pos valid)
      refine selects_loaded_slot ok area₂ (kept.trans kept₂)
        (fun c outside below => (untouched c outside below).trans (slot.within c outside)) dst
        (selects_shiftHalves ok area₂ long valid (fun x => u.binary (nativeForm op e) x q)
          (fun x size => ?_) (fun t kept same => ?_) (first.trans slot.value) value)
      · rw [← u.binary_eq valid whole native size (Memory.size_read ..) fun _ => small,
          Lanes.eval?_shift shift valid x (by simp [q]) small]
        exact Lanes.shift?_congr shift valid whole (by rw [parked, Nat.mod_mod]) x
      · have found := (area₂.of_keeps ok kept (by simp)).slot ok (k := cfg.physBytes) (by omega)
        have shifted := exec_binary (u := u) found valid whole native
        rw [same _ _ (Nat.le_refl _) (by omega)] at shifted
        exact shifted

end

end

end LaneAsm.X86
