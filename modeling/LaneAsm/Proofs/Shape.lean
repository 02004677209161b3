import LaneAsm.Catalog.BuiltIn
import LaneAsm.Proofs.Run
import LaneAsm.Proofs.Transparency

/-!
The shape of the reference machine. Every vector register has the bytes of a physical register and
every base register the bits of a base value (`Machine.Shaped`). A step writes one register or
rewrites the memory in place, with a value that fits (`Machine.touches_of_effect`), so the shape is
kept along every run (`Program.shaped_of_visits`). A step is also played as the reads and writes it is
made of, where whatever was written before a fault stays written (`Machine.play`): all its reads come
before its only write, so a step that fails has changed nothing (`Machine.play_eq`).
-/
namespace LaneAsm

/-! ## Base values -/

namespace Lane

theorem and_mask_le (e : Elem) (x : UInt64) : x &&& e.mask ≤ e.mask := by
  rw [UInt64.le_iff_toNat_le, UInt64.toNat_and]
  exact Nat.and_le_right

theorem flag_le_mask (e : Elem) (holds : Bool) : flag e holds ≤ e.mask := by
  unfold flag
  split
  · exact UInt64.le_refl _
  · exact UInt64.zero_le

theorem signedLane?_le_mask {op : Op} {e : Elem} {a b : Int64} {n r : UInt64}
    (made : signedLane? op e a b n = some r) : r ≤ e.mask := by
  unfold signedLane? at made
  dsimp only at made
  split at made <;> cases made <;> first | exact and_mask_le _ _ | exact flag_le_mask _ _

theorem subUnsigned_le (a b : UInt64) : subUnsigned a b ≤ a := by
  unfold subUnsigned
  split
  · exact UInt64.zero_le
  · next least =>
    rw [UInt64.le_iff_toNat_le, UInt64.toNat_sub_of_le _ _ (UInt64.not_lt.1 least)]
    exact Nat.sub_le ..

theorem shiftRight_le (x n : UInt64) : shiftRight x n ≤ x := by
  unfold shiftRight
  split
  · rw [UInt64.le_iff_toNat_le, UInt64.toNat_shiftRight]
    exact Nat.shiftRight_le ..
  · exact UInt64.zero_le

/-- Unsigned lanes stay below the mask where their sources do. -/
theorem unsignedLane?_le_mask {op : Op} {e : Elem} {a b r : UInt64} (left : a ≤ e.mask)
    (right : b ≤ e.mask) (made : unsignedLane? op e a b = some r) : r ≤ e.mask := by
  have added : addUnsigned a b e.mask ≤ e.mask := by
    unfold addUnsigned
    dsimp only
    split
    · exact UInt64.le_refl _
    split
    · next small => exact UInt64.le_of_lt small
    · exact UInt64.le_refl _
  have chosen (p : Prop) [Decidable p] : (if p then a else b) ≤ e.mask := by
    split
    · exact left
    · exact right
  unfold unsignedLane? at made
  split at made <;> cases made
  case h_1 => exact added
  case h_2 => exact UInt64.le_trans (subUnsigned_le a b) left
  case h_3 => exact chosen _
  case h_4 => exact chosen _
  case h_5 | h_6 => exact UInt64.le_trans (shiftRight_le _ _) left
  all_goals exact flag_le_mask _ _

/-- An integer lane has no bits above those of its element. -/
theorem integer_le_mask (op : Op) (e : Elem) (x y : UInt64) : integer op e x y ≤ e.mask := by
  unfold integer
  dsimp only
  split
  · next made =>
    split at made
    · exact signedLane?_le_mask made
    · exact unsignedLane?_le_mask (and_mask_le e x) (and_mask_le e y) made
  · split <;> first | exact and_mask_le _ _ | exact UInt64.zero_le

end Lane

namespace Machine

variable {cfg : Config} {m m' : Machine}

/-- Base values have 32 or 64 bits. -/
def Based (cfg : Config) : Prop := cfg.baseBits = 32 ∨ cfg.baseBits = 64

theorem valid_base (based : Based cfg) (k : Kind) : (⟨cfg.baseBits, k⟩ : Elem).valid = true := by
  rcases based with bits | bits <;> simp [Elem.valid, bits]

theorem and_baseMask_lt (based : Based cfg) (x : UInt64) :
    (x &&& baseMask cfg).toNat < 2 ^ cfg.baseBits := by
  rcases based with bits | bits
  · rw [baseMask, if_pos bits, bits, UInt64.toNat_and]
    exact Nat.lt_of_le_of_lt Nat.and_le_right (by decide)
  · rw [bits]
    exact UInt64.toNat_lt _

/-- A base value, wherever it comes from, has the bits of one. -/
theorem baseOf_lt (based : Based cfg) {o : Operand} {x : UInt64} (read : m.baseOf cfg o = .ok x) :
    x.toNat < 2 ^ cfg.baseBits := by
  cases o with
  | reg r =>
    obtain ⟨y, -, made⟩ := bind_eq_ok.1 read
    cases made
    exact and_baseMask_lt based y
  | imm i =>
    cases read
    exact and_baseMask_lt based _
  | mem a =>
    obtain ⟨raw, -, made⟩ := bind_eq_ok.1 read
    have lane := orTrap_eq_ok.1 made
    have valid : (baseElem cfg).valid = true := valid_base based _
    have short := Elem.bytes_le valid
    unfold Bytes.lane? Bytes.read? at lane
    split at lane
    · obtain rfl := Option.some.inj lane
      rw [Elem.width_of_valid valid, Bytes.readWord_eq]
      have length := List.length_take_le (baseElem cfg).bytes (raw.toList.drop (0 * (baseElem cfg).bytes))
      calc (wordOf _).toNat < 256 ^ ((raw.toList.drop (0 * (baseElem cfg).bytes)).take
              (baseElem cfg).bytes).length := wordOf_lt _ (Nat.le_trans length short)
        _ ≤ 256 ^ (baseElem cfg).bytes := Nat.pow_le_pow_right (by decide) length
        _ = 2 ^ cfg.baseBits := Elem.range_of_valid valid
    · cases lane

/-- A base value that is shifted has the bits of one. -/
theorem eval_base_lt (based : Based cfg) (op : Op) (signed : Bool) (x n : UInt64) :
    (Lane.eval op ⟨cfg.baseBits, if signed then .signed else .unsigned⟩ x n).toNat
      < 2 ^ cfg.baseBits := by
  have valid := valid_base based (if signed then .signed else .unsigned)
  have integer : (⟨cfg.baseBits, if signed then .signed else .unsigned⟩ : Elem).isFloat = false := by
    cases signed <;> rfl
  have small := UInt64.le_iff_toNat_le.1 (Lane.integer_le_mask op
    ⟨cfg.baseBits, if signed then .signed else .unsigned⟩ x n)
  rw [Elem.toNat_mask valid] at small
  rw [Lane.eval, integer]
  exact Nat.lt_of_le_of_lt small (Nat.sub_lt (Nat.two_pow_pos _) Nat.one_pos)

/-! ## Single steps -/

/-- Vector registers have the bytes of a physical register and base registers the bits of a base
value. -/
structure Shaped (cfg : Config) (m : Machine) : Prop where
  vectors : ∀ i : Fin 32, (m.vectors.get i).size = cfg.physBytes
  bases : ∀ i : Fin 32, (m.bases.get i).toNat < 2 ^ cfg.baseBits

/-- A machine that starts with its registers at zero has the shape. -/
theorem shaped_init (cfg : Config) (memory : Bytes) : (init cfg memory).Shaped cfg := by
  constructor
  · intro i
    show ((Vector.replicate 32 (Bytes.zeros cfg.physBytes))[i.val]).size = _
    rw [Vector.getElem_replicate]
    exact Array.size_replicate
  · intro i
    show ((Vector.replicate 32 (0 : UInt64))[i.val]).toNat < _
    rw [Vector.getElem_replicate]
    exact Nat.two_pow_pos _

/-- What a step may do: nothing, write a register with a value that fits, or rewrite the memory. -/
inductive Touches (cfg : Config) (m : Machine) : Machine → Prop where
  | nothing : Touches cfg m m
  | vector (i : Fin 32) {v : Bytes} (fits : v.size = cfg.physBytes) :
    Touches cfg m { m with vectors := m.vectors.set i v }
  | base (i : Fin 32) {x : UInt64} (fits : x.toNat < 2 ^ cfg.baseBits) :
    Touches cfg m { m with bases := m.bases.set i x }
  | memory {bytes : Bytes} (fits : bytes.size = m.memory.size) :
    Touches cfg m { m with memory := bytes }

theorem Touches.shaped (touches : Touches cfg m m') (shaped : m.Shaped cfg) :
    m'.Shaped cfg ∧ m'.memory.size = m.memory.size := by
  cases touches with
  | nothing => exact ⟨shaped, rfl⟩
  | vector i fits =>
    refine ⟨⟨fun j => ?_, shaped.bases⟩, rfl⟩
    show ((m.vectors.set i _)[j.val]).size = _
    rw [Vector.getElem_set]
    split
    · exact fits
    · exact shaped.vectors j
  | base i fits =>
    refine ⟨⟨shaped.vectors, fun j => ?_⟩, rfl⟩
    show ((m.bases.set i _)[j.val]).toNat < _
    rw [Vector.getElem_set]
    split
    · exact fits
    · exact shaped.bases j
  | memory fits => exact ⟨⟨shaped.vectors, shaped.bases⟩, fits⟩

theorem Shaped.size_vector (shaped : m.Shaped cfg) {r : Reg} {v : Bytes}
    (read : m.vector r = .ok v) : v.size = cfg.physBytes := by
  obtain ⟨i, -, made⟩ := bind_eq_ok.1 read
  cases made
  exact shaped.vectors i

theorem Shaped.size_vectorOf (shaped : m.Shaped cfg) {o : Operand} {v : Bytes}
    (read : m.vectorOf cfg o = .ok v) : v.size = cfg.physBytes := by
  cases o with
  | reg r => exact shaped.size_vector read
  | mem x => exact size_of_load read
  | imm i => cases read

theorem touches_of_setVector {r : Reg} {v : Bytes} (fits : v.size = cfg.physBytes)
    (written : m.setVector r v = .ok m') : Touches cfg m m' := by
  obtain ⟨i, -, made⟩ := bind_eq_ok.1 written
  cases made
  exact .vector i fits

theorem touches_of_setBase {r : Reg} {x : UInt64} (fits : x.toNat < 2 ^ cfg.baseBits)
    (written : m.setBase r x = .ok m') : Touches cfg m m' := by
  obtain ⟨i, -, made⟩ := bind_eq_ok.1 written
  cases made
  exact .base i fits

theorem touches_of_store {x : Mem} {v : Bytes} (written : m.store cfg x v = .ok m') :
    Touches cfg m m' := by
  obtain ⟨a, -, made⟩ := bind_eq_ok.1 written
  cases made
  exact .memory (Bytes.size_write ..)

theorem Shaped.touches_of_binary (shaped : m.Shaped cfg) {op : Op} {e : Elem} {d s1 : Reg}
    {s2 : Operand} (done : m.binary cfg op e d s1 s2 = .ok m') : Touches cfg m m' := by
  obtain ⟨y, -, done⟩ := bind_eq_ok.1 done
  obtain ⟨x, read, done⟩ := bind_eq_ok.1 done
  obtain ⟨v, made, written⟩ := bind_eq_ok.1 done
  refine touches_of_setVector ?_ written
  rw [Lanes.size_eval? (orTrap_eq_ok.1 made)]
  exact shaped.size_vector read

/-- One case for each primitive: what it writes has the size of what it read, or the bits of a base
value. -/
theorem Shaped.touches_of_effect (based : Based cfg) (shaped : m.Shaped cfg) {p : Primitive}
    (done : m.effect cfg p = .ok m') : Touches cfg m m' := by
  have still (same : Except.ok m = (Except.ok m' : Except Fault Machine)) : Touches cfg m m' := by
    cases same
    exact .nothing
  cases p with
  | move dst src =>
    cases dst with
    | reg d =>
      obtain ⟨v, read, written⟩ := bind_eq_ok.1 done
      exact touches_of_setVector (shaped.size_vectorOf read) written
    | mem d =>
      cases src with
      | reg s =>
        obtain ⟨v, -, written⟩ := bind_eq_ok.1 done
        exact touches_of_store written
      | mem x => exact still done
      | imm i => exact still done
    | imm i => exact still done
  | logic op d s1 s2 => exact shaped.touches_of_binary done
  | not d s =>
    obtain ⟨x, read, done⟩ := bind_eq_ok.1 done
    obtain ⟨v, made, written⟩ := bind_eq_ok.1 done
    refine touches_of_setVector ?_ written
    rw [Lanes.size_eval? (orTrap_eq_ok.1 made)]
    exact shaped.size_vector read
  | arith op e d s1 s2 => exact shaped.touches_of_binary done
  | shift op e d s count =>
    obtain ⟨n, -, done⟩ := bind_eq_ok.1 done
    obtain ⟨x, read, done⟩ := bind_eq_ok.1 done
    obtain ⟨v, made, written⟩ := bind_eq_ok.1 done
    refine touches_of_setVector ?_ written
    rw [Lanes.size_shift? (orTrap_eq_ok.1 made)]
    exact shaped.size_vector read
  | shiftEach op e d s counts => exact shaped.touches_of_binary done
  | compare op e d s1 s2 => exact shaped.touches_of_binary done
  | merge d s mask =>
    obtain ⟨y, -, done⟩ := bind_eq_ok.1 done
    obtain ⟨x, read, done⟩ := bind_eq_ok.1 done
    obtain ⟨k, -, done⟩ := bind_eq_ok.1 done
    obtain ⟨v, made, written⟩ := bind_eq_ok.1 done
    refine touches_of_setVector ?_ written
    rw [Lanes.size_merge? (orTrap_eq_ok.1 made)]
    exact shaped.size_vector read
  | moveBase dst src =>
    cases dst with
    | reg d =>
      obtain ⟨x, read, written⟩ := bind_eq_ok.1 done
      exact touches_of_setBase (baseOf_lt based read) written
    | mem d =>
      cases src with
      | reg s =>
        obtain ⟨x, -, done⟩ := bind_eq_ok.1 done
        obtain ⟨v, -, written⟩ := bind_eq_ok.1 done
        exact touches_of_store written
      | mem x => exact still done
      | imm i => exact still done
    | imm i => exact still done
  | arithBase op d s =>
    obtain ⟨y, -, done⟩ := bind_eq_ok.1 done
    obtain ⟨x, -, written⟩ := bind_eq_ok.1 done
    exact touches_of_setBase (and_baseMask_lt based _) written
  | shiftBase op signed d count =>
    obtain ⟨x, -, written⟩ := bind_eq_ok.1 done
    exact touches_of_setBase (eval_base_lt based op signed x _) written
  | maskJump s c l => exact still done
  | compareJump c x y l => exact still done
  | jump l => exact still done
  | bind l => exact still done

/-- A step keeps the shape and the size of the memory. -/
theorem Shaped.step (based : Based cfg) (shaped : m.Shaped cfg) {p : Primitive} {j : LabelRef}
    (took : m.step cfg p = .ok (m', j)) : m'.Shaped cfg ∧ m'.memory.size = m.memory.size :=
  (shaped.touches_of_effect based (step_eq_ok.1 took).1).shaped shaped

/-- A step that jumps changes nothing. -/
theorem eq_of_jump {p : Primitive} {l : Label} (took : m.step cfg p = .ok (m', some l)) : m' = m := by
  obtain ⟨changed, jumped⟩ := step_eq_ok.1 took
  cases p with
  | maskJump s c target => exact (Except.ok.inj changed).symm
  | compareJump c x y target => exact (Except.ok.inj changed).symm
  | jump target => exact (Except.ok.inj changed).symm
  | _ => cases jumped

/-! ## Steps as reads and writes -/

/-- Work on a machine. Whatever was written before a fault stays written. -/
abbrev Work (α : Type) := EStateM Fault Machine α

/-- Reads something of the machine. -/
def look {α : Type} (f : Machine → Except Fault α) : Work α := fun m =>
  match f m with
  | .ok a => .ok a m
  | .error e => .error e m

/-- Writes something to the machine. -/
def change (f : Machine → Except Fault Machine) : Work Unit := fun m =>
  match f m with
  | .ok m' => .ok () m'
  | .error e => .error e m

/-- A lanewise operation, read by read. -/
def playBinary (cfg : Config) (op : Op) (e : Elem) (dst s1 : Reg) (s2 : Operand) : Work Unit := do
  let y ← look (·.vectorOf cfg s2)
  let x ← look (·.vector s1)
  let v ← look fun _ => orTrap (Lanes.eval? op e x y)
  change (·.setVector dst v)

/-- What a primitive that does not jump does, read by read and write by write. -/
def playEffect (cfg : Config) : Primitive → Work Unit
  | .move (.reg d) src => do
    let v ← look (·.vectorOf cfg src)
    change (·.setVector d v)
  | .move (.mem d) (.reg s) => do
    let v ← look (·.vector s)
    change (·.store cfg d v)
  | .logic op dst s1 s2 => playBinary cfg op .u8 dst s1 s2
  | .not dst src => do
    let x ← look (·.vector src)
    let v ← look fun _ => orTrap (Lanes.eval? .not .u8 x #[])
    change (·.setVector dst v)
  | .arith op e dst s1 s2 => playBinary cfg op e dst s1 s2
  | .shift op e dst src count => do
    let n ← look (·.countOf cfg e count)
    let x ← look (·.vector src)
    let v ← look fun _ => orTrap (Lanes.shift? op e x n)
    change (·.setVector dst v)
  | .shiftEach op e dst src counts => playBinary cfg op e dst src counts
  | .compare op e dst s1 s2 => playBinary cfg op e dst s1 s2
  | .merge dst src mask => do
    let s ← look (·.vectorOf cfg src)
    let d ← look (·.vector dst)
    let k ← look (·.vector mask)
    let v ← look fun _ => orTrap (Lanes.merge? d s k)
    change (·.setVector dst v)
  | .moveBase (.reg d) src => do
    let x ← look (·.baseOf cfg src)
    change (·.setBase d x)
  | .moveBase (.mem d) (.reg s) => do
    let x ← look (·.base s)
    let v ← look fun _ => orTrap ((Bytes.zeros (baseElem cfg).bytes).setLane? (baseElem cfg) 0 x)
    change (·.store cfg d v)
  | .arithBase op dst src => do
    let y ← look (·.baseOf cfg src)
    let x ← look (·.base dst)
    change (·.setBase dst (baseResult op x y &&& baseMask cfg))
  | .shiftBase op signed dst count => do
    let x ← look (·.base dst)
    let e : Elem := ⟨cfg.baseBits, if signed then .signed else .unsigned⟩
    change (·.setBase dst (Lane.eval op e x (UInt64.ofInt count.value)))
  | _ => pure ()

/-- One step: its writes, and then where it jumps to. -/
def play (cfg : Config) (p : Primitive) : Work LabelRef := do
  playEffect cfg p
  look (·.jumpOf cfg p)

/-- The end of work that either is done or leaves a machine as it was. -/
def settle (m : Machine) : Except Fault Machine → EStateM.Result Fault Machine Unit
  | .ok m' => .ok () m'
  | .error f => .error f m

theorem change_eq (f : Machine → Except Fault Machine) : change f m = settle m (f m) := by
  unfold change
  cases f m <;> rfl

/-- A read in front of work leaves the machine to it. -/
theorem look_bind {α : Type} {f : Machine → Except Fault α} {k : α → Work Unit}
    {r : α → Except Fault Machine} (rest : ∀ a, k a m = settle m (r a)) :
    (look f >>= k) m = settle m (f m >>= r) := by
  show (EStateM.bind (look f) k) m = _
  unfold EStateM.bind look
  cases f m with
  | ok a => exact rest a
  | error e => rfl

theorem playBinary_eq (op : Op) (e : Elem) (dst s1 : Reg) (s2 : Operand) :
    playBinary cfg op e dst s1 s2 m = settle m (m.binary cfg op e dst s1 s2) :=
  look_bind fun _ => look_bind fun _ => look_bind fun _ => change_eq _

/-- Every primitive reads what it needs before it writes. -/
theorem playEffect_eq (p : Primitive) : playEffect cfg p m = settle m (m.effect cfg p) := by
  cases p with
  | move dst src =>
    cases dst with
    | reg d => exact look_bind fun _ => change_eq _
    | mem d =>
      cases src with
      | reg s => exact look_bind fun _ => change_eq _
      | mem x => rfl
      | imm i => rfl
    | imm i => rfl
  | logic op d s1 s2 => exact playBinary_eq ..
  | not d s => exact look_bind fun _ => look_bind fun _ => change_eq _
  | arith op e d s1 s2 => exact playBinary_eq ..
  | shift op e d s count => exact look_bind fun _ => look_bind fun _ => look_bind fun _ => change_eq _
  | shiftEach op e d s counts => exact playBinary_eq ..
  | compare op e d s1 s2 => exact playBinary_eq ..
  | merge d s mask =>
    exact look_bind fun _ => look_bind fun _ => look_bind fun _ => look_bind fun _ => change_eq _
  | moveBase dst src =>
    cases dst with
    | reg d => exact look_bind fun _ => change_eq _
    | mem d =>
      cases src with
      | reg s => exact look_bind fun _ => look_bind fun _ => change_eq _
      | mem x => rfl
      | imm i => rfl
    | imm i => rfl
  | arithBase op d s => exact look_bind fun _ => look_bind fun _ => change_eq _
  | shiftBase op signed d count => exact look_bind fun _ => change_eq _
  | maskJump s c l => rfl
  | compareJump c x y l => rfl
  | jump l => rfl
  | bind l => rfl

/-- A primitive that writes does not jump, so that nothing can fail after a write. -/
theorem effect_or_jumpOf (cfg : Config) (p : Primitive) :
    (∀ m : Machine, m.effect cfg p = .ok m) ∨ ∀ m : Machine, m.jumpOf cfg p = .ok none := by
  cases p with
  | maskJump s c l => exact .inl fun _ => rfl
  | compareJump c x y l => exact .inl fun _ => rfl
  | jump l => exact .inl fun _ => rfl
  | _ => exact .inr fun _ => rfl

/-- A step played is a step taken, and leaves the machine as it was if it fails. -/
theorem play_eq (p : Primitive) : play cfg p m =
    match m.step cfg p with
    | .ok (m', j) => .ok j m'
    | .error f => .error f m := by
  have played : play cfg p m =
      match settle m (m.effect cfg p) with
      | .ok _ m' => look (·.jumpOf cfg p) m'
      | .error f m' => .error f m' := by
    show EStateM.bind (playEffect cfg p) _ m = _
    unfold EStateM.bind
    rw [playEffect_eq]
    cases settle m (m.effect cfg p) <;> rfl
  rw [played]
  simp only [step]
  rcases effect_or_jumpOf cfg p with still | falls
  · rw [still]
    simp only [settle, look]
    cases m.jumpOf cfg p <;> rfl
  · rw [falls]
    cases m.effect cfg p with
    | ok m' =>
      simp only [settle, look, falls]
      rfl
    | error f => rfl

end Machine

/-! ## Runs -/

namespace Program

variable {cfg : Config} {p : Program} {m₀ m : Machine}

/-- A run from `m₀` comes to step `pc` with the machine `m`, whatever its limit. -/
inductive Visits (cfg : Config) (p : Program) (m₀ : Machine) : Nat → Machine → Prop where
  | start : Visits cfg p m₀ 0 m₀
  | next {pc : Nat} {x : Primitive} {m m' : Machine} (before : Visits cfg p m₀ pc m)
    (here : p.steps[pc]? = some x) (took : m.step cfg x = .ok (m', none)) :
    Visits cfg p m₀ (pc + 1) m'
  | jump {pc place : Nat} {x : Primitive} {l : Label} {m m' : Machine} (before : Visits cfg p m₀ pc m)
    (here : p.steps[pc]? = some x) (took : m.step cfg x = .ok (m', some l))
    (found : p.labels.lookup (some l) = some place) : Visits cfg p m₀ place m'

/-- Why a run ends with the machine `m` before step `pc`: there is no such step, there are no steps
left of its limit, the step fails, or it jumps to a label that was never bound. -/
def StopsAt (cfg : Config) (p : Program) (limit pc : Nat) (m : Machine) : Except Fault Unit → Prop
  | .ok () => p.steps[pc]? = none
  | .error f => ∃ x, p.steps[pc]? = some x ∧
    (f = .error (.ofCause (.stepLimit limit)) ∨
      (∃ f', m.step cfg x = .error f' ∧ f = f'.within (.step pc x.stepName)) ∨
      ∃ l, m.step cfg x = .ok (m, some l) ∧ p.labels.lookup (some l) = none ∧
        f = .error (.ofCause (.neverBound l.name)))

theorem stopsAt_of_runFrom {limit fuel pc : Nat} (visited : p.Visits cfg m₀ pc m) :
    ∃ pc', p.Visits cfg m₀ pc' (p.runFrom cfg limit fuel pc m).machine ∧
      p.StopsAt cfg limit pc' (p.runFrom cfg limit fuel pc m).machine
        (p.runFrom cfg limit fuel pc m).outcome := by
  induction fuel generalizing pc m with
  | zero =>
    unfold runFrom
    cases here : p.steps[pc]? with
    | none => exact ⟨pc, visited, here⟩
    | some x => exact ⟨pc, visited, x, here, .inl rfl⟩
  | succ fuel ih =>
    unfold runFrom
    cases here : p.steps[pc]? with
    | none => exact ⟨pc, visited, here⟩
    | some x =>
      dsimp only
      rcases took : m.step cfg x with f | ⟨m', _ | l⟩
      · exact ⟨pc, visited, x, here, .inr (.inl ⟨f, took, rfl⟩)⟩
      · exact ih (.next visited here took)
      · dsimp only
        cases found : p.labels.lookup (some l) with
        | some place => exact ih (.jump visited here took found)
        | none =>
          obtain rfl := Machine.eq_of_jump took
          exact ⟨pc, visited, x, here, .inr (.inr ⟨l, took, found, rfl⟩)⟩

/-- The shape is kept along every run. -/
theorem shaped_of_visits (based : Machine.Based cfg) (shaped : m₀.Shaped cfg) {pc : Nat}
    (visited : p.Visits cfg m₀ pc m) : m.Shaped cfg ∧ m.memory.size = m₀.memory.size := by
  induction visited with
  | start => exact ⟨shaped, rfl⟩
  | next _ _ took ih =>
    obtain ⟨shaped', size⟩ := ih.1.step based took
    exact ⟨shaped', size.trans ih.2⟩
  | jump _ _ took _ ih =>
    obtain ⟨shaped', size⟩ := ih.1.step based took
    exact ⟨shaped', size.trans ih.2⟩

end Program

/-- Runs keep the shape of the machine. Whatever the program and however long the run, every machine
it comes to has vector registers of full size, base registers of the bits of base values and a memory
of the size it had. The next step, played read by read and write by write, either is done and leaves
such a machine, or fails and leaves the machine as it was. Every run ends with one of these
machines. -/
theorem runs_keep_shape {cfg : Config} (based : Machine.Based cfg) (p : Program) {m₀ : Machine}
    (shaped : m₀.Shaped cfg) :
    (∀ pc m, p.Visits cfg m₀ pc m → m.Shaped cfg ∧ m.memory.size = m₀.memory.size ∧
      ∀ x, p.steps[pc]? = some x →
        match Machine.play cfg x m with
        | .ok j m' => m.step cfg x = .ok (m', j) ∧ m'.Shaped cfg ∧ m'.memory.size = m₀.memory.size
        | .error f m' => m.step cfg x = .error f ∧ m' = m) ∧
    ∀ limit, ∃ pc, p.Visits cfg m₀ pc (p.run cfg limit m₀).machine ∧
      p.StopsAt cfg limit pc (p.run cfg limit m₀).machine (p.run cfg limit m₀).outcome := by
  refine ⟨fun pc m visited => ?_, fun limit => Program.stopsAt_of_runFrom .start⟩
  obtain ⟨shaped', size⟩ := Program.shaped_of_visits based shaped visited
  refine ⟨shaped', size, fun x _ => ?_⟩
  rw [Machine.play_eq]
  rcases took : m.step cfg x with f | ⟨m', j⟩
  · exact ⟨rfl, rfl⟩
  · obtain ⟨shaped'', size'⟩ := shaped'.step based took
    exact ⟨rfl, shaped'', size'.trans size⟩

/-- A base register of 32 bits is taken below zero, a vector is stored, and storing another behind the
end of the memory fails: the run stops in its fifth step with what the steps before left. -/
theorem runs_keep_shape_store :
    let cfg := Config.mips .mips64 "128" 1 64 32
    let is : List (Instr LabelRef) :=
      [.movBase (.reg (.base 2)) (.imm ⟨0, .ib⟩), .arithBase .sub (.base 2) (.imm ⟨1, .ib⟩),
        .not (.xmm 1) (.xmm 1), .mov (.mem (.plain (.base 3) ⟨0, .dp⟩)) (.reg (.xmm 1)),
        .mov (.mem (.plain (.base 3) ⟨4, .dp⟩)) (.reg (.xmm 2))]
    let b := Program.backend cfg ⟨false, false⟩
    let a := is.foldl (fun a i => (Assembler.issue b a i).2) (Assembler.start .empty)
    let m := Machine.init cfg (.zeros 16)
    let run := a.state.run cfg 9 m
    run.machine.Shaped cfg ∧ run.machine.memory.size = m.memory.size ∧
      run.machine.memory = Array.replicate 16 0xFF ∧ run.machine.bases[2] = 0xFFFFFFFF ∧
      run.steps = 5 ∧ run.outcome.toOption = none := by
  intro cfg is b a m run
  have based : Machine.Based cfg := .inl rfl
  have shaped : m.Shaped cfg := Machine.shaped_init cfg _
  obtain ⟨kept, ends⟩ := runs_keep_shape based a.state shaped
  obtain ⟨pc, visited, -⟩ : ∃ pc, a.state.Visits cfg m pc run.machine ∧ _ := ends 9
  obtain ⟨shaped', size, -⟩ := kept pc run.machine visited
  refine ⟨shaped', size, ?_, ?_, ?_, ?_⟩ <;> decide +kernel

end LaneAsm
