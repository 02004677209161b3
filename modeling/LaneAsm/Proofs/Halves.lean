import LaneAsm.Proofs.CompareRoute
import LaneAsm.Proofs.Recorded

/-!
What one half of an instruction on vectors computes. `Instr.value?` is the value of an instruction
in terms of what its operands read; the primitives of a half leave that value in the half's physical
register (`leaves_half`), and they succeed only if there is such a value (`value_of_steps`).
-/
namespace LaneAsm

/-- What the operands of an instruction read. -/
structure Reader where
  source : Operand → Option Bytes
  count : Elem → Operand → Option UInt64

namespace Instr

variable {L : Type}

/-- The vector register that an instruction writes. -/
def dest? : Instr L → Option Reg
  | .mov (.reg d) _ | .logic _ d _ _ | .not d _ | .arith _ _ d _ _ | .shift _ _ d _ _
  | .shiftEach _ _ d _ _ | .compare _ _ d _ _ | .merge d _ => some d
  | _ => none

/-- The vectors that the value of an instruction depends on. -/
def sources : Instr L → List Operand
  | .mov (.reg _) src => [src]
  | .logic _ _ s1 s2 | .arith _ _ _ s1 s2 | .shiftEach _ _ _ s1 s2 | .compare _ _ _ s1 s2 =>
    [.reg s1, s2]
  | .not _ src | .shift _ _ _ src _ => [.reg src]
  | .merge dst src => [.reg dst, src, .reg Reg.mask]
  | _ => []

/-- The value of a lanewise operation. -/
def binary? (r : Reader) (op : Op) (e : Elem) (s1 : Reg) (s2 : Operand) : Option Bytes :=
  (r.source (.reg s1)).bind fun x => (r.source s2).bind fun y => Lanes.eval? op e x y

/-- The value that an instruction leaves in its destination. -/
def value? (r : Reader) : Instr L → Option Bytes
  | .mov (.reg _) src => r.source src
  | .logic op _ s1 s2 => binary? r op .u8 s1 s2
  | .not _ src => (r.source (.reg src)).bind (Lanes.eval? .not .u8 · #[])
  | .arith op e _ s1 s2 | .shiftEach op e _ s1 s2 | .compare op e _ s1 s2 => binary? r op e s1 s2
  | .shift op e _ src count =>
    (r.count e count).bind fun n => (r.source (.reg src)).bind (Lanes.shift? op e · n)
  | .merge dst src => (r.source src).bind fun s => (r.source (.reg dst)).bind fun d =>
    (r.source (.reg Reg.mask)).bind fun m => Lanes.merge? d s m
  | _ => none

/-- The instructions that the operations of the assembler form: each family of operations has its
own kind of instruction. -/
def Formed : Instr L → Prop
  | .logic op _ _ _ => op.isLogic = true ∧ op ≠ .not
  | .arith op _ _ _ _ => op ∈ [.add, .sub, .mul, .div, .ads, .sbs, .min, .max]
  | .shift op _ _ _ _ => op = .shl ∨ op = .shr
  | .shiftEach op _ _ _ _ => op = .svl ∨ op = .svr
  | .compare op _ _ _ _ => op.isCompare = true
  | .arithBase op _ _ => Program.baseOp op = true
  | .shiftBase op _ _ _ => op = .shl ∨ op = .shr
  | _ => True

/-- Readers that agree on what an instruction reads give it one value. -/
theorem value?_congr {r r' : Reader} {i : Instr L} (same : ∀ o ∈ i.sources, r'.source o = r.source o)
    (counts : ∀ e o, r'.count e o = r.count e o) : i.value? r' = i.value? r := by
  cases i with
  | mov dst src => cases dst <;> simp_all [value?, sources]
  | _ => simp_all [value?, sources, binary?]

end Instr

namespace Machine

/-- What half `h` of the operands of an instruction reads on a machine. -/
def reader (cfg : Config) (m : Machine) (h : Nat) : Reader where
  source o := (cfg.half o h).toOption.bind ((executor cfg).source m)
  count e o := (m.countOf cfg e o).toOption

theorem reader_reg {cfg : Config} {m : Machine} {h : Nat} {r : Reg} (vector : r.kind = .vector) :
    (m.reader cfg h).source (.reg r) = m.vectorAt? (cfg.physical r.index h) := by
  simp [reader, Config.half, vector, Except.toOption, Executor.source, Config.phys, Reg.xmm, executor]

theorem reader_of_half {cfg : Config} {m : Machine} {h : Nat} {o y : Operand}
    (half : cfg.half o h = .ok y) : (m.reader cfg h).source o = (executor cfg).source m y := by
  simp [reader, half, Except.toOption]

end Machine

/-! ## Registers that instructions may use -/

namespace Config

/-- A source that a vector instruction may name. -/
def UsableSource (cfg : Config) : Operand → Prop
  | .reg r => cfg.Usable r
  | .mem _ => True
  | .imm _ => False

theorem usable_of_checkVectorSource {cfg : Config} {o : Operand}
    (ok : cfg.checkVectorSource o = .ok ()) : cfg.UsableSource o := by
  cases o with
  | reg r => exact usable_of_checkVector ok
  | mem m => trivial
  | imm i => cases ok

theorem usable_of_checkSources {cfg : Config} {d x : Reg} {y : Operand}
    (ok : cfg.checkSources d x y = .ok ()) :
    cfg.Usable d ∧ cfg.Usable x ∧ cfg.UsableSource y := by
  obtain ⟨_, first, ok⟩ := bind_eq_ok.mp ok
  obtain ⟨_, second, third⟩ := bind_eq_ok.mp ok
  exact ⟨usable_of_checkVector first, usable_of_checkVector second,
    usable_of_checkVectorSource third⟩

theorem half_reg {cfg : Config} {r : Reg} {h : Nat} {y : Operand} (usable : cfg.Usable r)
    (found : cfg.half (.reg r) h = .ok y) : y = .reg (.xmm (cfg.physical r.index h)) := by
  simp only [half, usable.1, ↓reduceIte] at found
  cases found
  rfl

theorem half_mem {cfg : Config} {x : Mem} {h : Nat} {y : Operand}
    (found : cfg.half (.mem x) h = .ok y) :
    ∃ z, y = .mem z ∧ (if h = 0 then z = x else x.offset (h * cfg.physBytes) = .ok z) := by
  simp only [half] at found
  split at found
  · rename_i first
    cases found
    exact ⟨x, rfl, by simp [first]⟩
  · rename_i later
    cases moved : x.offset (h * cfg.physBytes) with
    | error e =>
      rw [moved] at found
      cases found
    | ok z =>
      rw [moved] at found
      cases found
      exact ⟨z, rfl, by simp [later]⟩

theorem usable_mask {cfg : Config} {r : Reg} (usable : cfg.Usable r) : cfg.Usable Reg.mask := by
  have := usable.2
  exact ⟨rfl, Int.le_refl 0, by simp [Reg.mask, Reg.xmm]; omega⟩

/-- A logical register with a place of its own: a usable one or the temporary. -/
def Held (cfg : Config) (i : Int) : Prop := (0 ≤ i ∧ i < cfg.vectorRegs) ∨ i = cfg.tempReg

/-- The physical registers of usable registers and of the temporary exist and are all different, and
the temporary is not usable. -/
structure Separated (cfg : Config) : Prop where
  inside : ∀ i, cfg.Held i → ∀ h < cfg.halves, 0 ≤ cfg.physical i h ∧ cfg.physical i h < 32
  injective : ∀ i j, cfg.Held i → cfg.Held j → ∀ h < cfg.halves, ∀ k < cfg.halves,
    cfg.physical i h = cfg.physical j k → i = j ∧ h = k
  temporary : ¬(0 ≤ cfg.tempReg ∧ cfg.tempReg < cfg.vectorRegs)

theorem Separated.known {cfg : Config} (separated : cfg.Separated) {i : Int} (held : cfg.Held i)
    {h : Nat} (half : h < cfg.halves) (m : Machine) :
    (m.vectorAt? (cfg.physical i h)).isSome :=
  Machine.isSome_vectorAt?.mpr (separated.inside i held h half)

theorem Separated.temp_apart {cfg : Config} (separated : cfg.Separated) {r : Reg}
    (usable : cfg.Usable r) {h k : Nat} (first : h < cfg.halves) (second : k < cfg.halves) :
    cfg.physical cfg.tempReg h ≠ cfg.physical r.index k := by
  intro same
  obtain ⟨same, _⟩ :=
    separated.injective _ _ (.inr rfl) (.inl usable.2) h first k second same
  exact separated.temporary (same ▸ usable.2)

end Config

namespace Capability

/-- The backend has an instruction as it stands and does not put it together from others. -/
def Direct (cap : Capability) : Instr LabelRef → Prop
  | .logic op _ _ _ => cap.supports op .u32 = .native
  | .compare c e _ _ _ => cap.route c e = .direct
  | _ => True

theorem Accepts.sources {cap : Capability} {i : Instr LabelRef} (accepted : cap.Accepts i) :
    ∀ o ∈ i.sources, cap.config.UsableSource o := by
  intro o member
  cases i with
  | mov dst src =>
    cases dst with
    | reg d =>
      obtain ⟨_, _, source⟩ := bind_eq_ok.mp accepted
      simp only [Instr.sources, List.mem_singleton] at member
      exact member ▸ Config.usable_of_checkVectorSource source
    | _ => simp [Instr.sources] at member
  | logic op dst s1 s2 =>
    obtain ⟨_, first, second⟩ := Config.usable_of_checkSources accepted
    rcases List.mem_cons.mp member with rfl | member
    · exact first
    · exact List.mem_singleton.mp member ▸ second
  | arith op e dst s1 s2 | shiftEach op e dst s1 s2 | compare op e dst s1 s2 =>
    obtain ⟨_, first, second⟩ := Config.usable_of_checkSources accepted.2
    rcases List.mem_cons.mp member with rfl | member
    · exact first
    · exact List.mem_singleton.mp member ▸ second
  | not dst src =>
    exact List.mem_singleton.mp member ▸ Config.usable_of_checkVector accepted.2
  | shift op e dst src count =>
    exact List.mem_singleton.mp member ▸ Config.usable_of_checkVector accepted.2.2
  | merge dst src =>
    have usable := Config.usable_of_checkVector accepted.1
    rcases List.mem_cons.mp member with rfl | member
    · exact usable
    · rcases List.mem_cons.mp member with rfl | member
      · exact Config.usable_of_checkVectorSource accepted.2
      · exact List.mem_singleton.mp member ▸ Config.usable_mask usable
  | _ => simp [Instr.sources] at member

theorem Accepts.dest {cap : Capability} {i : Instr LabelRef} (accepted : cap.Accepts i) {d : Reg}
    (dest : i.dest? = some d) : cap.config.Usable d := by
  cases i with
  | mov dst src =>
    cases dst with
    | reg r =>
      cases dest
      obtain ⟨_, register, _⟩ := bind_eq_ok.mp accepted
      exact Config.usable_of_checkVector register
    | _ => cases dest
  | logic op dst s1 s2 =>
    cases dest
    exact (Config.usable_of_checkSources accepted).1
  | arith op e dst s1 s2 | shiftEach op e dst s1 s2 | compare op e dst s1 s2 =>
    cases dest
    exact (Config.usable_of_checkSources accepted.2).1
  | not dst src | merge dst src =>
    cases dest
    exact Config.usable_of_checkVector accepted.1
  | shift op e dst src count =>
    cases dest
    exact Config.usable_of_checkVector accepted.2.1
  | _ => cases dest

theorem halved_of_dest {i : Instr LabelRef} {d : Reg} (dest : i.dest? = some d) :
    Capability.halved i = true := by
  cases i <;> first | rfl | cases dest

/-- The primitive of half a store. -/
theorem lowerHalf_store {cap : Capability} {h : Nat} {x : Mem} {r : Reg} {ps : List Primitive}
    (vector : r.kind = .vector) (made : cap.lowerHalf h (.mov (.mem x) (.reg r)) = .ok ps) :
    ∃ z, cap.config.half (.mem x) h = .ok (.mem z) ∧
      ps = [.move (.mem z) (.reg (cap.config.phys r h))] := by
  obtain ⟨y, found, made⟩ := bind_eq_ok.mp made
  obtain ⟨z, rfl, _⟩ := Config.half_mem found
  refine ⟨z, found, ?_⟩
  simp only [Config.half, vector, ↓reduceIte] at made
  exact (Except.ok.inj made).symm

end Capability

/-! ## The primitives of a half -/

namespace Machine

variable {cfg : Config} {limits : Limits} {m : Machine} {h : Nat}

theorem binary?_reader {op : Op} {e : Elem} {s1 : Reg} {s2 y : Operand} (usable : cfg.Usable s1)
    (half : cfg.half s2 h = .ok y) :
    Instr.binary? (m.reader cfg h) op e s1 s2 =
      (executor cfg).binary op e (cfg.physical s1.index h) y m := by
  simp only [Instr.binary?, reader_reg usable.1, reader_of_half half]
  rfl

theorem realises_shift {op : Op} {e : Elem} {d a : Int} {count : Operand} :
    (executor cfg).Realises (.shift op e (.xmm d) (.xmm a) count) d fun m =>
      (m.countOf cfg e count).toOption.bind fun n => (m.vectorAt? a).bind (Lanes.shift? op e · n) := by
  refine realises_of_effect (fun _ => rfl) fun m v value => ?_
  obtain ⟨n, counted, value⟩ := Option.bind_eq_some_iff.mp value
  obtain ⟨u, read, value⟩ := Option.bind_eq_some_iff.mp value
  have read : m.vector (.xmm a) = .ok u := vector_eq_ok.mpr read
  simp [effect, toOption_eq_some.mp counted, read, value, orTrap, bind, Except.bind]

theorem realises_merge {d k : Int} {y : Operand} :
    (executor cfg).Realises (.merge (.xmm d) y (.xmm k)) d fun m =>
      ((executor cfg).source m y).bind fun s => (m.vectorAt? d).bind fun u =>
        (m.vectorAt? k).bind fun w => Lanes.merge? u s w := by
  refine realises_of_effect (fun _ => rfl) fun m v value => ?_
  obtain ⟨s, source, value⟩ := Option.bind_eq_some_iff.mp value
  obtain ⟨u, before, value⟩ := Option.bind_eq_some_iff.mp value
  obtain ⟨w, mask, value⟩ := Option.bind_eq_some_iff.mp value
  have before : m.vector (.xmm d) = .ok u := vector_eq_ok.mpr before
  have mask : m.vector (.xmm k) = .ok w := vector_eq_ok.mpr mask
  simp [effect, vectorOf_of_source source, before, mask, value, orTrap, bind, Except.bind]

theorem eval?_joined {op : Op} (joined : op = .ann ∨ op = .orn) (u w : Bytes) :
    Lanes.eval? op .u8 u w = Lanes.eval? (if op = .orn then .orr else .and) .u8 (u.map (~~~·)) w := by
  rcases joined with rfl | rfl
  · simp only [Lanes.eval?, reduceCtorEq, ↓reduceIte, Array.zipWith_map_left, Array.size_map]
    rfl
  · simp only [Lanes.eval?, ↓reduceIte, Array.zipWith_map_left, Array.size_map]
    rfl

/-- A complement followed by an operation on bits is the joined operation. -/
theorem leaves_complementThen {op : Op} (joined : op = .ann ∨ op = .orn) {d a t : Int} {y : Operand}
    {u w v : Bytes} (placed : (executor cfg).Placed m d a y t u w)
    (value : Lanes.eval? op .u8 u w = some v) :
    ∃ m', (executor cfg).Leaves (Capability.complementThen op (.xmm d) (.xmm a) y (.xmm t))
      m m' d t v := by
  have faithful := executor_faithful cfg ⟨cfg, fun _ _ => .native, fun _ _ => true⟩
  -- the complement goes to register `k`, which the second source does not name
  have through {k : Int} (known : (m.vectorAt? k).isSome) (apart : y ≠ .reg (.xmm k))
      (present : k = d ∨ k = t) :
      ∃ m', (executor cfg).Leaves [.not (.xmm k) (.xmm a),
        .logic (if op = .orn then .orr else .and) (.xmm d) (.xmm k) y] m m' d t v := by
    obtain ⟨m₁, step, written⟩ := realises_not (a := a) m (u.map (~~~·)) known
      (by simp [show m.vectorAt? a = some u from placed.left, Lanes.eval?])
    have right := Executor.source_of_writes faithful written apart
    have destination : (m₁.vectorAt? d).isSome := isSome_vectorAt?.mpr
      (isSome_vectorAt?.mp placed.destination)
    obtain ⟨m₂, step', written'⟩ := realises_binary (fun _ => rfl) (fun _ => rfl) m₁ v destination
      (p := .logic (if op = .orn then .orr else .and) (.xmm d) (.xmm k) y) (by
        rw [Executor.binary, written.here, right, placed.right]
        exact (eval?_joined joined u w).symm.trans value)
    exact ⟨m₂, Executor.Leaves.after step written present (written'.leaves step')⟩
  unfold Capability.complementThen
  dsimp only
  split
  · rename_i same
    exact through placed.temporary placed.apartRight (.inr rfl)
  · rename_i other
    exact through placed.destination other (.inl rfl)

section
variable (separated : cfg.Separated) (half : h < cfg.halves)
include separated half

omit separated half in
/-- Only the joined operations are ever derived from others. -/
theorem joined_of_derived {op : Op} (formed : op.isLogic = true ∧ op ≠ .not)
    (derived : ¬(Program.backend cfg limits).supports op .u32 = .native) : op = .ann ∨ op = .orn := by
  cases op <;> simp_all [Op.isLogic, Program.backend, Program.supports]

theorem placed_of_usable {d x : Reg} {s2 y : Operand} {u v : Bytes} (dest : cfg.Usable d)
    (first : cfg.Usable x) (second : cfg.UsableSource s2) (found : cfg.half s2 h = .ok y)
    (left : (m.reader cfg h).source (.reg x) = some u) (right : (m.reader cfg h).source s2 = some v) :
    (executor cfg).Placed m (cfg.physical d.index h) (cfg.physical x.index h) y
      (cfg.physical cfg.tempReg h) u v where
  destination := separated.known (.inl dest.2) half m
  temporary := separated.known (.inr rfl) half m
  left := (reader_reg first.1).symm.trans left
  right := (reader_of_half found).symm.trans right
  apartDestination := separated.temp_apart dest half half
  apartLeft := separated.temp_apart first half half
  apartRight := by
    cases s2 with
    | reg r =>
      rw [Config.half_reg second found]
      intro same
      refine separated.temp_apart second half half ?_
      simpa [Reg.xmm] using same.symm
    | mem x =>
      obtain ⟨z, rfl, _⟩ := Config.half_mem found
      simp
    | imm i => cases second

/-- The primitives of a half leave the value of the instruction in the half's register. -/
theorem leaves_half {i : Instr LabelRef} {d : Reg} {ps : List Primitive} {v : Bytes}
    (formed : i.Formed) (dest : i.dest? = some d)
    (accepted : (Program.backend cfg limits).toCapability.Accepts i)
    (lowered : (Program.backend cfg limits).toCapability.lowerHalf h i = .ok ps)
    (sized : ∀ o ∈ i.sources, ∀ u, (m.reader cfg h).source o = some u → u.size = cfg.physBytes)
    (whole : 8 ∣ cfg.physBytes) (value : i.value? (m.reader cfg h) = some v) :
    ∃ m', (executor cfg).Leaves ps m m' (cfg.physical d.index h) (cfg.physical cfg.tempReg h) v := by
  have usable : cfg.Usable d := accepted.dest dest
  have sources := accepted.sources
  have known : (m.vectorAt? (cfg.physical d.index h)).isSome := separated.known (.inl usable.2) half m
  -- a half that is one primitive realising the value
  have one {p : Primitive} {result : Machine → Option Bytes}
      (realises : (executor cfg).Realises p (cfg.physical d.index h) result)
      (same : result m = some v) :
      ∃ m', (executor cfg).Leaves [p] m m' (cfg.physical d.index h) (cfg.physical cfg.tempReg h) v := by
    obtain ⟨m', step, written⟩ := realises m v known same
    exact ⟨m', written.leaves step⟩
  cases i with
  | mov dst src =>
    cases dst with
    | reg r =>
      cases dest
      obtain ⟨x, first, lowered⟩ := bind_eq_ok.mp lowered
      obtain ⟨y, second, lowered⟩ := bind_eq_ok.mp lowered
      cases lowered
      rw [Config.half_reg usable first]
      exact one realises_move ((reader_of_half second).symm.trans value)
    | _ => cases dest
  | logic op dst s1 s2 =>
    cases dest
    obtain ⟨y, found, lowered⟩ := bind_eq_ok.mp lowered
    cases lowered
    have first : cfg.Usable s1 := sources (.reg s1) (by simp [Instr.sources])
    have second : cfg.UsableSource s2 := sources s2 (by simp [Instr.sources])
    split
    · exact one (realises_binary (fun _ => rfl) fun _ => rfl)
        ((binary?_reader first found).symm.trans value)
    · rename_i derived
      obtain ⟨u, left, value⟩ := Option.bind_eq_some_iff.mp value
      obtain ⟨w, right, value⟩ := Option.bind_eq_some_iff.mp value
      exact leaves_complementThen (joined_of_derived formed derived)
        (placed_of_usable separated half usable first second found left right) value
  | not dst src =>
    cases dest
    cases lowered
    have first : cfg.Usable src := sources (.reg src) (by simp [Instr.sources])
    refine one realises_not ?_
    rw [← reader_reg first.1]
    exact value
  | arith op e dst s1 s2 | shiftEach op e dst s1 s2 =>
    cases dest
    obtain ⟨y, found, lowered⟩ := bind_eq_ok.mp lowered
    cases lowered
    have first : cfg.Usable s1 := sources (.reg s1) (by simp [Instr.sources])
    exact one (realises_binary (fun _ => rfl) fun _ => rfl)
      ((binary?_reader first found).symm.trans value)
  | shift op e dst src count =>
    cases dest
    cases lowered
    have first : cfg.Usable src := sources (.reg src) (by simp [Instr.sources])
    refine one realises_shift ?_
    rw [← reader_reg first.1]
    exact value
  | compare c e dst s1 s2 =>
    cases dest
    obtain ⟨y, found, lowered⟩ := bind_eq_ok.mp lowered
    cases lowered
    have first : cfg.Usable s1 := sources (.reg s1) (by simp [Instr.sources])
    have second : cfg.UsableSource s2 := sources s2 (by simp [Instr.sources])
    obtain ⟨u, left, value⟩ := Option.bind_eq_some_iff.mp value
    obtain ⟨w, right, value⟩ := Option.bind_eq_some_iff.mp value
    have size := sized (.reg s1) (by simp [Instr.sources]) u left
    have size' := sized s2 (by simp [Instr.sources]) w right
    obtain ⟨compare, valid⟩ := Route.defined_of_routed accepted.1
    obtain ⟨m', r, same, done⟩ := (Route.justified accepted.1).leaves
      (executor_faithful cfg (Program.backend cfg limits).toCapability)
      (placed_of_usable separated half usable first second found left right) compare valid
      (size ▸ Nat.dvd_trans (Elem.bytes_dvd valid) whole) (size.trans size'.symm)
    exact ⟨m', Option.some.inj (same.symm.trans value) ▸ done⟩
  | merge dst src =>
    cases dest
    obtain ⟨y, found, lowered⟩ := bind_eq_ok.mp lowered
    cases lowered
    have found : cfg.half src h = .ok y := found
    refine one realises_merge ?_
    rw [← reader_of_half found, ← reader_reg usable.1, ← reader_reg (Config.usable_mask usable).1]
    exact value
  | _ => cases dest

end

theorem steps_of_run {ps : List Primitive} {m' : Machine} (run : (executor cfg).run ps m = some m') :
    m.steps cfg ps = .ok (m', none) := by
  induction ps generalizing m with
  | nil =>
    cases run
    rfl
  | cons p ps ih =>
    obtain ⟨m₁, first, rest⟩ := Option.bind_eq_some_iff.mp run
    have step : m.step cfg p = .ok (m₁, none) := by
      simp only [executor] at first
      split at first
      · cases first
        assumption
      · cases first
    rw [steps, step]
    exact ih rest

/-- What a half reads is not touched by writes to other registers. -/
theorem source_congr {m' : Machine} (bases : m'.bases = m.bases) (memory : m'.memory = m.memory)
    (vectors : ∀ r, cfg.Usable r →
      m'.vectorAt? (cfg.physical r.index h) = m.vectorAt? (cfg.physical r.index h))
    {o : Operand} (usable : cfg.UsableSource o) :
    (m'.reader cfg h).source o = (m.reader cfg h).source o := by
  cases o with
  | reg r => rw [reader_reg usable.1, reader_reg usable.1, vectors r usable]
  | mem x =>
    cases found : cfg.half (.mem x) h with
    | error e => simp [reader, found, Except.toOption]
    | ok y =>
      obtain ⟨z, rfl, _⟩ := Config.half_mem found
      rw [reader_of_half found, reader_of_half found]
      simp only [Executor.source, executor, load_congr bases memory]
  | imm i => cases usable

theorem size_of_load {x : Mem} {n : Nat} {v : Bytes} (loaded : m.load cfg x n = .ok v) :
    v.size = n := by
  obtain ⟨a, found, made⟩ := bind_eq_ok.mp loaded
  cases made
  obtain ⟨b, -, found⟩ := bind_eq_ok.mp found
  split at found
  · cases found
  · split at found
    · cases found
    · next inside =>
      cases found
      simp
      omega

/-- What a source reads has the size of a register, where registers have. -/
theorem size_of_source {o : Operand} {u : Bytes} (usable : cfg.UsableSource o)
    (register : ∀ r, o = .reg r → ∀ u, m.vectorAt? (cfg.physical r.index h) = some u →
      u.size = cfg.physBytes)
    (read : (m.reader cfg h).source o = some u) : u.size = cfg.physBytes := by
  cases o with
  | reg r =>
    rw [reader_reg usable.1] at read
    exact register r rfl u read
  | mem x =>
    cases found : cfg.half (.mem x) h with
    | error e => simp [reader, found, Except.toOption] at read
    | ok y =>
      obtain ⟨z, rfl, _⟩ := Config.half_mem found
      rw [reader_of_half found] at read
      exact size_of_load (toOption_eq_some.mp read)
  | imm i => cases usable

/-! ## What a half that runs has read -/

theorem source_of_vectorOf {s2 y : Operand} {v : Bytes} (usable : cfg.UsableSource s2)
    (found : cfg.half s2 h = .ok y) (read : m.vectorOf cfg y = .ok v) :
    (m.reader cfg h).source s2 = some v := by
  rw [reader_of_half found]
  cases s2 with
  | reg r =>
    rw [Config.half_reg usable found] at read ⊢
    exact vector_eq_ok.mp read
  | mem x =>
    obtain ⟨z, rfl, _⟩ := Config.half_mem found
    exact toOption_eq_some.mpr read
  | imm i => cases usable

theorem reader_of_vector {r : Reg} {v : Bytes} (usable : cfg.Usable r)
    (read : m.vector (cfg.phys r h) = .ok v) : (m.reader cfg h).source (.reg r) = some v := by
  rw [reader_reg usable.1]
  exact vector_eq_ok.mp read

theorem writes_of_binary {op : Op} {e : Elem} {d s1 : Reg} {s2 y : Operand} {m' : Machine}
    (first : cfg.Usable s1) (second : cfg.UsableSource s2) (found : cfg.half s2 h = .ok y)
    (done : m.binary cfg op e (cfg.phys d h) (cfg.phys s1 h) y = .ok m') :
    ∃ v, Instr.binary? (m.reader cfg h) op e s1 s2 = some v ∧
      Writes m m' (cfg.physical d.index h) v := by
  obtain ⟨w, right, done⟩ := bind_eq_ok.mp done
  obtain ⟨u, left, done⟩ := bind_eq_ok.mp done
  obtain ⟨v, value, done⟩ := bind_eq_ok.mp done
  refine ⟨v, ?_, (writes_of_setVector done).2⟩
  rw [Instr.binary?, reader_of_vector first left, source_of_vectorOf second found right]
  exact orTrap_eq_ok.mp value

/-- A step of a primitive that does not jump. -/
theorem effect_of_steps {p : Primitive} {m' : Machine} {j : LabelRef}
    (still : jumpOf cfg m p = .ok none) (run : m.steps cfg [p] = .ok (m', j)) :
    j = none ∧ m.effect cfg p = .ok m' := by
  obtain ⟨done, jumped⟩ := steps_single.mp run
  exact ⟨Except.ok.inj (jumped.symm.trans still), done⟩

/-- Where nothing has to be derived, the primitives of a half succeed only if the instruction has a
value, and then they write it to the half's register. -/
theorem writes_half {i : Instr LabelRef} {d : Reg} {ps : List Primitive} {m' : Machine}
    {j : LabelRef} (dest : i.dest? = some d)
    (accepted : (Program.backend cfg limits).toCapability.Accepts i)
    (direct : (Program.backend cfg limits).toCapability.Direct i)
    (lowered : (Program.backend cfg limits).toCapability.lowerHalf h i = .ok ps)
    (run : m.steps cfg ps = .ok (m', j)) :
    j = none ∧ ∃ v, i.value? (m.reader cfg h) = some v ∧
      Writes m m' (cfg.physical d.index h) v := by
  have usable : cfg.Usable d := accepted.dest dest
  have sources : ∀ o ∈ i.sources, cfg.UsableSource o := accepted.sources
  cases i with
  | mov dst src =>
    cases dst with
    | reg r =>
      cases dest
      obtain ⟨x, first, lowered⟩ := bind_eq_ok.mp lowered
      obtain ⟨y, second, lowered⟩ := bind_eq_ok.mp lowered
      cases lowered
      rw [Config.half_reg usable first] at run
      obtain ⟨still, done⟩ := effect_of_steps rfl run
      obtain ⟨v, read, done⟩ := bind_eq_ok.mp done
      exact ⟨still, v, source_of_vectorOf (sources src (by simp [Instr.sources])) second read,
        (writes_of_setVector done).2⟩
    | _ => cases dest
  | logic op dst s1 s2 =>
    cases dest
    obtain ⟨y, found, lowered⟩ := bind_eq_ok.mp lowered
    cases lowered
    have native : (Program.backend cfg limits).supports op .u32 = .native := direct
    simp only [native, ↓reduceIte] at run
    obtain ⟨still, done⟩ := effect_of_steps rfl run
    exact ⟨still, writes_of_binary (sources (.reg s1) (by simp [Instr.sources]))
      (sources s2 (by simp [Instr.sources])) found done⟩
  | not dst src =>
    cases dest
    cases lowered
    obtain ⟨still, done⟩ := effect_of_steps rfl run
    obtain ⟨u, read, done⟩ := bind_eq_ok.mp done
    obtain ⟨v, value, done⟩ := bind_eq_ok.mp done
    have source : (m.reader cfg h).source (.reg src) = some u :=
      reader_of_vector (sources (.reg src) (by simp [Instr.sources])) read
    refine ⟨still, v, ?_, (writes_of_setVector done).2⟩
    rw [Instr.value?, source]
    exact orTrap_eq_ok.mp value
  | arith op e dst s1 s2 | shiftEach op e dst s1 s2 =>
    cases dest
    obtain ⟨y, found, lowered⟩ := bind_eq_ok.mp lowered
    cases lowered
    obtain ⟨still, done⟩ := effect_of_steps rfl run
    exact ⟨still, writes_of_binary (sources (.reg s1) (by simp [Instr.sources]))
      (sources s2 (by simp [Instr.sources])) found done⟩
  | shift op e dst src count =>
    cases dest
    cases lowered
    obtain ⟨still, done⟩ := effect_of_steps rfl run
    obtain ⟨n, counted, done⟩ := bind_eq_ok.mp done
    obtain ⟨u, read, done⟩ := bind_eq_ok.mp done
    obtain ⟨v, value, done⟩ := bind_eq_ok.mp done
    have counted : (m.reader cfg h).count e count = some n := toOption_eq_some.mpr counted
    have source : (m.reader cfg h).source (.reg src) = some u :=
      reader_of_vector (sources (.reg src) (by simp [Instr.sources])) read
    refine ⟨still, v, ?_, (writes_of_setVector done).2⟩
    rw [Instr.value?, counted, Option.bind_some, source]
    exact orTrap_eq_ok.mp value
  | compare c e dst s1 s2 =>
    cases dest
    obtain ⟨y, found, lowered⟩ := bind_eq_ok.mp lowered
    cases lowered
    rw [show (Program.backend cfg limits).route c e = .direct from direct] at run
    obtain ⟨still, done⟩ := effect_of_steps rfl run
    exact ⟨still, writes_of_binary (sources (.reg s1) (by simp [Instr.sources]))
      (sources s2 (by simp [Instr.sources])) found done⟩
  | merge dst src =>
    cases dest
    obtain ⟨y, found, lowered⟩ := bind_eq_ok.mp lowered
    cases lowered
    obtain ⟨still, done⟩ := effect_of_steps rfl run
    obtain ⟨s, source, done⟩ := bind_eq_ok.mp done
    obtain ⟨u, before, done⟩ := bind_eq_ok.mp done
    obtain ⟨w, mask, done⟩ := bind_eq_ok.mp done
    obtain ⟨v, value, done⟩ := bind_eq_ok.mp done
    have source : (m.reader cfg h).source src = some s :=
      source_of_vectorOf (sources src (by simp [Instr.sources])) found source
    have before : (m.reader cfg h).source (.reg d) = some u := reader_of_vector usable before
    have mask : (m.reader cfg h).source (.reg Reg.mask) = some w :=
      reader_of_vector (Config.usable_mask usable) mask
    refine ⟨still, v, ?_, (writes_of_setVector done).2⟩
    rw [Instr.value?, source, Option.bind_some, before, Option.bind_some, mask]
    exact orTrap_eq_ok.mp value
  | _ => cases dest

/-- A backend that lacks nothing derives nothing. -/
theorem direct_of_complete {i : Instr LabelRef} (formed : i.Formed)
    (accepted : (Program.backend cfg ⟨false, false⟩).toCapability.Accepts i) :
    (Program.backend cfg ⟨false, false⟩).toCapability.Direct i := by
  cases i with
  | logic op dst s1 s2 =>
    have native : Program.supports ⟨false, false⟩ op .u32 = .native := by
      simp [Program.supports, formed.1]
    exact native
  | compare c e dst s1 s2 =>
    have routed := accepted.1
    unfold Capability.Direct Capability.route at *
    dsimp only at routed ⊢
    split at routed
    · contradiction
    · rename_i defined
      have native : Program.nativeCompare ⟨false, false⟩ c e = true := by
        simpa [Program.nativeCompare] using defined
      rw [if_neg defined]
      exact if_pos native
  | _ => trivial

theorem effect_of_head {p : Primitive} {ps : List Primitive} {out : Machine × LabelRef}
    (run : m.steps cfg (p :: ps) = .ok out) : ∃ m', m.effect cfg p = .ok m' := by
  cases done : m.effect cfg p with
  | ok m' => exact ⟨m', rfl⟩
  | error f => simp [steps, step, done, bind, Except.bind] at run

/-- Whatever the route, a comparison that runs has read its second source. -/
theorem load_of_primitives {r : Route} (routed : r ≠ .none) {c : Op} {e : Elem} {d a t : Reg}
    {z : Mem} {out : Machine × LabelRef}
    (run : m.steps cfg (r.primitives c e d a (.mem z) t) = .ok out) :
    ∃ w, m.load cfg z cfg.physBytes = .ok w := by
  have read {op : Op} {d a : Reg} {m' : Machine}
      (done : m.binary cfg op e d a (.mem z) = .ok m') : ∃ w, m.load cfg z cfg.physBytes = .ok w := by
    obtain ⟨w, loaded, _⟩ := bind_eq_ok.mp done
    exact ⟨w, loaded⟩
  cases r with
  | none => exact absurd rfl routed
  | direct | notEqual | notDirect | minMax =>
    obtain ⟨m', done⟩ := effect_of_head run
    exact read done
  | swap | notSwap =>
    obtain ⟨m', done⟩ := effect_of_head run
    obtain ⟨w, loaded, _⟩ := bind_eq_ok.mp done
    exact ⟨w, loaded⟩

/-- A joined operation put together from two that runs has read its second source. -/
theorem load_of_complementThen {op : Op} {d a t : Reg} {z : Mem} {out : Machine × LabelRef}
    (run : m.steps cfg (Capability.complementThen op d a (.mem z) t) = .ok out) :
    ∃ w, m.load cfg z cfg.physBytes = .ok w := by
  rw [Capability.complementThen, if_neg (by simp)] at run
  obtain ⟨m₁, done⟩ := effect_of_head run
  have first : m.steps cfg [.not d a] = .ok (m₁, none) := steps_single.mpr ⟨done, rfl⟩
  obtain ⟨u, _, done⟩ := bind_eq_ok.mp done
  obtain ⟨v, _, done⟩ := bind_eq_ok.mp done
  obtain ⟨_, written⟩ := writes_of_setVector done
  rw [← List.singleton_append, steps_append first] at run
  obtain ⟨m₂, done⟩ := effect_of_head run
  obtain ⟨w, loaded, _⟩ := bind_eq_ok.mp done
  exact ⟨w, (load_congr written.bases written.memory cfg z _).symm.trans loaded⟩

section
variable (separated : cfg.Separated) (half : h < cfg.halves)
include separated half

theorem source_known {o y : Operand} (usable : cfg.UsableSource o) (found : cfg.half o h = .ok y)
    (loads : ∀ z, y = .mem z → ∃ w, m.load cfg z cfg.physBytes = .ok w) :
    ∃ w, (m.reader cfg h).source o = some w := by
  cases o with
  | reg r =>
    rw [reader_reg usable.1]
    exact Option.isSome_iff_exists.mp (separated.known (.inl usable.2) half m)
  | mem x =>
    obtain ⟨z, rfl, _⟩ := Config.half_mem found
    obtain ⟨w, loaded⟩ := loads z rfl
    exact ⟨w, (reader_of_half found).trans (toOption_eq_some.mpr loaded)⟩
  | imm i => cases usable

/-- The primitives of a half succeed only if the instruction has a value. -/
theorem value_of_steps {i : Instr LabelRef} {d : Reg} {ps : List Primitive}
    {out : Machine × LabelRef} (formed : i.Formed) (dest : i.dest? = some d)
    (accepted : (Program.backend cfg limits).toCapability.Accepts i)
    (lowered : (Program.backend cfg limits).toCapability.lowerHalf h i = .ok ps)
    (sized : ∀ o ∈ i.sources, ∀ u, (m.reader cfg h).source o = some u → u.size = cfg.physBytes)
    (whole : 8 ∣ cfg.physBytes) (run : m.steps cfg ps = .ok out) :
    ∃ v, i.value? (m.reader cfg h) = some v := by
  by_cases direct : (Program.backend cfg limits).toCapability.Direct i
  · obtain ⟨_, v, value, _⟩ := writes_half dest accepted direct lowered run
    exact ⟨v, value⟩
  · have sources : ∀ o ∈ i.sources, cfg.UsableSource o := accepted.sources
    cases i with
    | logic op dst s1 s2 =>
      obtain ⟨y, found, lowered⟩ := bind_eq_ok.mp lowered
      cases lowered
      have derived : ¬(Program.backend cfg limits).supports op .u32 = .native := direct
      rw [if_neg derived] at run
      obtain ⟨u, left⟩ := source_known (m := m) separated half
        (sources (.reg s1) (by simp [Instr.sources])) rfl (fun z same => by cases same)
      obtain ⟨w, right⟩ := source_known (m := m) separated half
        (sources s2 (by simp [Instr.sources])) found
        (fun z same => load_of_complementThen (same ▸ run))
      have size := sized (.reg s1) (by simp [Instr.sources]) u left
      have size' := sized s2 (by simp [Instr.sources]) w right
      rw [Instr.value?, Instr.binary?, left, Option.bind_some, right, Option.bind_some]
      rcases joined_of_derived formed derived with rfl | rfl <;>
        simp [Lanes.eval?, size, size']
    | compare c e dst s1 s2 =>
      obtain ⟨y, found, lowered⟩ := bind_eq_ok.mp lowered
      cases lowered
      obtain ⟨u, left⟩ := source_known (m := m) separated half
        (sources (.reg s1) (by simp [Instr.sources])) rfl (fun z same => by cases same)
      obtain ⟨w, right⟩ := source_known (m := m) separated half
        (sources s2 (by simp [Instr.sources])) found
        (fun z same => load_of_primitives accepted.1 (same ▸ run))
      have size := sized (.reg s1) (by simp [Instr.sources]) u left
      have size' := sized s2 (by simp [Instr.sources]) w right
      obtain ⟨compare, valid⟩ := Route.defined_of_routed accepted.1
      obtain ⟨v, value, _⟩ := Lanes.eval?_total valid
        (size ▸ Nat.dvd_trans (Elem.bytes_dvd valid) whole) (size.trans size'.symm)
        (Lanes.paired_of_isCompare compare)
      rw [Instr.value?, Instr.binary?, left, Option.bind_some, right, Option.bind_some]
      exact ⟨v, value⟩
    | _ => exact absurd trivial direct

end

end Machine

end LaneAsm
