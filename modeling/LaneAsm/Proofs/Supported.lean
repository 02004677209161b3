import LaneAsm.Proofs.Msa.Failing
import LaneAsm.Proofs.Relowering
import LaneAsm.Proofs.X86.Failing

/-!
What a backend reports as supported is what it encodes. An operation that is reported is lowered, on
operands that fit it, to primitives that the backend offers (`lower_yields`), and one that is not is
refused before anything is issued (`lower_refuses`). A backend is `Reliable` when it refuses nothing
that it offers; its report is then true (`Reliable.truthful`). The encoders and the recording backend
are reliable.
-/
namespace LaneAsm

/-! ## Emissions that succeed -/

namespace Emission

variable {ι α : Type} {P : ι → Prop}

/-- The emission ends well and every item has a property. -/
structure Yields (P : ι → Prop) (x : Emission ι Unit) : Prop where
  ended : x.outcome = .ok ()
  items : ∀ i ∈ x.items, P i

namespace Yields

theorem emitAll {is : List ι} (all : ∀ i ∈ is, P i) : (Emission.emitAll is).Yields P := ⟨rfl, all⟩

theorem emit {i : ι} (holds : P i) : (Emission.emit i).Yields P :=
  emitAll fun _ member => List.mem_singleton.mp member ▸ holds

theorem check {x : Except Error α} {a : α} {f : α → Emission ι Unit} (passed : x = .ok a)
    (rest : (f a).Yields P) : (Emission.check x >>= f).Yields P := by
  subst passed
  exact rest

theorem each {f : α → Emission ι Unit} {as : List α} (step : ∀ a ∈ as, (f a).Yields P) :
    (Emission.each f as).Yields P := by
  induction as with
  | nil => exact ⟨rfl, fun _ => List.not_mem_nil.elim⟩
  | cons a as ih =>
    have first := step a List.mem_cons_self
    have rest := ih fun b member => step b (List.mem_cons_of_mem a member)
    show (f a >>= fun _ => Emission.each f as).Yields P
    rw [bind_of_ok first.ended]
    refine ⟨rest.ended, fun i member => ?_⟩
    rcases List.mem_append.mp member with early | late
    · exact first.items i early
    · exact rest.items i late

end Yields

end Emission

/-! ## Operands that fit -/

/-- An operand in memory is not based on the stack pointer. -/
def Operand.OffStack : Operand → Prop
  | .mem m => m.base ≠ Reg.stack
  | _ => True

/-- A multiple of four up to the end of the widest window is inside it. -/
theorem insideMask_of_dvd {v : Int} (aligned : 4 ∣ v) (least : 0 ≤ v) (most : v ≤ 0x7FFFFFFC) :
    insideMask 0x7FFFFFFC v = true := by
  obtain ⟨n, number⟩ : ∃ n : Nat, (UInt64.ofInt v).toNat = n <<< 2 ∧ n < 2 ^ 29 := by
    refine ⟨v.toNat / 4, ?_, by omega⟩
    have wrapped := toNat_ofInt v
    rw [Nat.shiftLeft_eq]
    omega
  have kept : UInt64.ofInt v &&& 0x7FFFFFFC = UInt64.ofInt v := by
    apply UInt64.toNat_inj.mp
    have window : (0x7FFFFFFC : UInt64).toNat = (2 ^ 29 - 1) <<< 2 := rfl
    rw [UInt64.toNat_and, number.1, window, ← Nat.shiftLeft_and_distrib,
      Nat.and_two_pow_sub_one_of_lt_two_pow number.2]
  have outside : UInt64.ofInt v &&& ~~~0x7FFFFFFC = 0 := by
    rw [← kept, UInt64.and_assoc]
    simp
  simp [insideMask, outside, least]

namespace Config

section
variable (cfg : Config)

/-- Memory that vectors are read from: off the stack, with its last half inside the widest window. -/
def Reaches (m : Mem) : Prop :=
  checkMem m = .ok () ∧ m.base ≠ Reg.stack ∧
    m.disp.value + ((cfg.halves - 1) * cfg.physBytes : Nat) ≤ 0x7FFFFFFC

/-- The second source of an operation: a usable register, or memory. -/
def SecondSource : Operand → Prop
  | .reg r => cfg.Usable r
  | .mem m => cfg.Reaches m
  | .imm _ => False

/-- The count of a shift: an immediate of its class, or memory. -/
def ShiftCount : Operand → Prop
  | .reg _ => False
  | .mem m => cfg.Reaches m
  | .imm i => i.check = .ok ()

/-- A second operand that fits an operation; a complement leaves it out. -/
def Fits : Op → Operand → Prop
  | .not, _ => True
  | .shl, o | .shr, o => cfg.ShiftCount o
  | _, o => cfg.SecondSource o

end

section
variable {cfg : Config}

theorem checkVector_of_usable {r : Reg} (usable : cfg.Usable r) : cfg.checkVector r = .ok () := by
  obtain ⟨kind, least, below⟩ := usable
  rw [checkVector, if_neg (by simp [kind]), if_neg (by omega)]

theorem Reaches.inRange {m : Mem} (reaches : cfg.Reaches m) : m.InRange := by
  obtain ⟨passed, _, bound⟩ := reaches
  exact inRange_of_checkMem (by omega) passed

theorem SecondSource.check {o : Operand} (source : cfg.SecondSource o) :
    cfg.checkVectorSource o = .ok () := by
  cases o with
  | reg r => exact checkVector_of_usable source
  | mem m => exact source.1
  | imm i => exact source.elim

theorem checkSources_of_usable {dst s1 : Reg} {s2 : Operand} (into : cfg.Usable dst)
    (first : cfg.Usable s1) (second : cfg.SecondSource s2) : cfg.checkSources dst s1 s2 = .ok () := by
  rw [checkSources, checkVector_of_usable into, checkVector_of_usable first]
  exact second.check

/-- Every half of memory is at most the last one further on, so that it is inside the window. -/
theorem Reaches.half (whole : 4 ∣ cfg.physBytes) {m : Mem} (reaches : cfg.Reaches m) {h : Nat}
    (below : h < cfg.halves) : ∃ m', cfg.half (.mem m) h = .ok (.mem m') ∧ m'.base = m.base := by
  by_cases lowest : h = 0
  · exact ⟨m, if_pos lowest, rfl⟩
  have inside := reaches.inRange
  obtain ⟨_, _, bound⟩ := reaches
  have near : h * cfg.physBytes ≤ (cfg.halves - 1) * cfg.physBytes :=
    Nat.mul_le_mul_right _ (by omega)
  have aligned : 4 ∣ m.disp.value + (h * cfg.physBytes : Nat) :=
    Int.dvd_add inside.aligned (Int.natCast_dvd_natCast.2 (Nat.dvd_mul_left_of_dvd whole h))
  have least := inside.least
  have window : insideMask 0x7FFFFFFC (m.disp.value + (h * cfg.physBytes : Nat)) = true :=
    insideMask_of_dvd aligned (by omega) (by omega)
  refine ⟨{ m with disp := ⟨m.disp.value + (h * cfg.physBytes : Nat), .dv⟩ }, ?_, rfl⟩
  have unwrapped : wrap64 (m.disp.value + h * cfg.physBytes) =
      m.disp.value + (h * cfg.physBytes : Nat) := by
    rw [Int.natCast_mul]
    exact Int.bmod_eq_of_le (by omega) (by omega)
  simp only [Config.half, if_neg lowest, Mem.offset, unwrapped, Disp.check, DispClass.mask?, window]
  rfl

theorem SecondSource.half {n : Nat} (maps : cfg.Maps n) (whole : 4 ∣ cfg.physBytes) {o : Operand}
    (source : cfg.SecondSource o) {h : Nat} (below : h < cfg.halves) :
    ∃ y, cfg.half o h = .ok y ∧ y.VectorIn n ∧ y.OffStack := by
  cases o with
  | imm i => exact source.elim
  | reg r =>
    have word : (Operand.reg r).Word := trivial
    exact ⟨_, rfl, maps.vectorIn_half below word source.check rfl, trivial⟩
  | mem m =>
    have reaches : cfg.Reaches m := source
    obtain ⟨m', found, same⟩ := reaches.half whole below
    have word : (Operand.mem m).Word := by
      have most := reaches.inRange.most
      simp only [Operand.Word]
      omega
    have apart : m'.base ≠ Reg.stack := same ▸ reaches.2.1
    exact ⟨.mem m', found, maps.vectorIn_half below word source.check found, apart⟩

end

end Config

/-! ## What is reported -/

/-- The primitives that a backend owes for its report: operations that it reports as supported and
comparators that it has, on registers of a file of `n` and on memory off the stack. -/
inductive Capability.Offers (cap : Capability) (n : Nat) : Primitive → Prop where
  | move {d : Reg} {y : Operand} (dst : d.InFile n) (src : y.VectorIn n) (apart : y.OffStack) :
    Offers cap n (.move (.reg d) y)
  | not {d x : Reg} (dst : d.InFile n) (src : x.InFile n) : Offers cap n (.not d x)
  | logic {op : Op} {d x : Reg} {y : Operand} (logical : op.isLogic = true) (binary : op ≠ .not)
    (native : cap.supports op .u32 = .native) (dst : d.InFile n) (first : x.InFile n)
    (second : y.VectorIn n) (apart : y.OffStack) : Offers cap n (.logic op d x y)
  | arith {op : Op} {e : Elem} {d x : Reg} {y : Operand}
    (arithmetic : op ∈ [.add, .sub, .mul, .div, .ads, .sbs, .min, .max])
    (supported : cap.checkSupported op e = .ok ()) (dst : d.InFile n) (first : x.InFile n)
    (second : y.VectorIn n) (apart : y.OffStack) : Offers cap n (.arith op e d x y)
  | shift {op : Op} {e : Elem} {d x : Reg} {count : Operand} (shifts : op = .shl ∨ op = .shr)
    (supported : cap.checkSupported op e = .ok ()) (dst : d.InFile n) (src : x.InFile n)
    (counted : cap.config.ShiftCount count) : Offers cap n (.shift op e d x count)
  | shiftEach {op : Op} {e : Elem} {d x : Reg} {y : Operand} (shifts : op = .svl ∨ op = .svr)
    (supported : cap.checkSupported op e = .ok ()) (dst : d.InFile n) (src : x.InFile n)
    (counts : y.VectorIn n) (apart : y.OffStack) : Offers cap n (.shiftEach op e d x y)
  | compare {c : Op} {e : Elem} {d x : Reg} {y : Operand} (comparator : c.isCompare = true)
    (valid : e.valid = true) (native : cap.nativeCompare c e = true) (dst : d.InFile n)
    (first : x.InFile n) (second : y.VectorIn n) (apart : y.OffStack) :
    Offers cap n (.compare c e d x y)

/-- An error that says that an operation is not there, or not for the element type. -/
def Refusal (err : Error) : Prop := err.kind? = some .unsupported ∨ err.kind? = some .element

namespace Capability

variable {cap : Capability} {n : Nat}

theorem checkSupported_eq_ok {op : Op} {e : Elem} :
    cap.checkSupported op e = .ok () ↔ op.applies e = true ∧ cap.supports op e ≠ .unsupported := by
  unfold checkSupported
  by_cases applies : op.applies e = true
  · by_cases missing : cap.supports op e = .unsupported
    · simp [applies, missing, Error.fail]
    · simp [applies, missing]
  · simp [applies, Error.fail]

theorem checkSupported_refuses {op : Op} {e : Elem} (refused : cap.checkSupported op e ≠ .ok ()) :
    ∃ err, cap.checkSupported op e = .error err ∧ Refusal err := by
  unfold checkSupported at refused ⊢
  by_cases applies : op.applies e = true
  · by_cases missing : cap.supports op e = .unsupported
    · exact ⟨_, by simp [applies, missing, Error.fail]; rfl, .inl rfl⟩
    · exact absurd (by simp [applies, missing]) refused
  · exact ⟨_, by simp [applies, Error.fail]; rfl, .inr rfl⟩

/-- Outside the comparators the report is the check that operations pass before they are lowered. -/
theorem support_ne_unsupported {op : Op} (other : op.isCompare = false) (e : Elem) :
    cap.support op e ≠ .unsupported ↔ cap.checkSupported op e = .ok () := by
  rw [checkSupported_eq_ok]
  unfold support
  by_cases applies : op.applies e = true
  · simp [applies, other]
  · simp [applies]

/-- A comparator is reported where there is a route to it, as long as the comparators that a backend
has are among the operations that it supports. -/
theorem support_compare_ne_unsupported
    (direct : ∀ c e, c.applies e = true → cap.nativeCompare c e = true →
      cap.supports c e ≠ .unsupported) {c : Op} (comparator : c.isCompare = true) {e : Elem} :
    cap.support c e ≠ .unsupported ↔ cap.route c e ≠ .none := by
  unfold support
  by_cases applies : c.applies e = true
  · simp only [applies, comparator, Bool.not_true, Bool.false_eq_true, if_false, if_true]
    constructor
    · intro reported none
      rw [none] at reported
      exact reported rfl
    · intro routed
      have reason := Route.justified routed
      cases found : cap.route c e with
      | none => exact absurd found routed
      | direct =>
        rw [found] at reason
        cases reason with
        | direct native => exact direct c e applies native
      | _ => simp
  · have none : cap.route c e = .none := by simp [route, applies]
    simp [applies, none]

/-! ## Lowering what is reported -/

section
variable {d x t : Reg} {y : Operand} (dst : d.InFile n) (first : x.InFile n)
  (second : y.VectorIn n) (apart : y.OffStack) (temp : t.InFile n)
include dst first second apart temp

/-- A comparator is derived with what the backend offers. -/
theorem offers_of_part {c : Op} {e : Elem} (comparator : c.isCompare = true) (valid : e.valid = true)
    {p : Primitive} (part : Route.Part cap c e d x y t p) : cap.Offers n p := by
  cases part with
  | load => exact .move temp second apart
  | extreme bound supported =>
    rcases bound with rfl | rfl
    · refine .arith (by decide) (checkSupported_eq_ok.2 ⟨?_, supported⟩) temp first second apart
      simp [Op.applies, valid]
    · refine .arith (by decide) (checkSupported_eq_ok.2 ⟨?_, supported⟩) temp first second apart
      simp [Op.applies, valid]
  | @compare k a b orders native left right =>
    have inside : a.InFile n := by
      rcases left with rfl | rfl | rfl
      · exact first
      · exact temp
      · exact second
    rcases right with rfl | rfl
    · exact .compare (orders comparator) valid native dst inside second apart
    · exact .compare (orders comparator) valid native dst inside first trivial
  | complement => exact .not dst dst

/-- A joined complement is put together from the plain operations. -/
theorem offers_of_complementPart (plain : cap.supports .and .u32 = .native)
    (joined : cap.supports .orr .u32 = .native) {p : Primitive} (part : ComplementPart d x y t p) :
    cap.Offers n p := by
  have inside {r : Reg} (place : r = d ∨ r = t) : r.InFile n := by
    rcases place with rfl | rfl
    · exact dst
    · exact temp
  cases part with
  | complement place => exact .not (inside place) first
  | join known place =>
    rcases known with rfl | rfl
    · exact .logic rfl (by decide) plain dst (inside place) second apart
    · exact .logic rfl (by decide) joined dst (inside place) second apart

end

/-- What a report has to be like: bits are always operated on, conjunction and disjunction as they
stand, and the comparators that a backend has are supported. -/
structure Coherent (cap : Capability) : Prop where
  conjoins : cap.supports .and .u32 = .native
  disjoins : cap.supports .orr .u32 = .native
  logic : ∀ op e, op.isLogic = true → cap.supports op e ≠ .unsupported
  direct : ∀ c e, c.applies e = true → cap.nativeCompare c e = true →
    cap.supports c e ≠ .unsupported

section
variable {op : Op} {e : Elem} {dst s1 : Reg} {s2 : Operand} (into : cap.config.Usable dst)
  (first : cap.config.Usable s1)
include into first

section
variable (maps : cap.config.Maps n) (whole : 4 ∣ cap.config.physBytes)
include maps whole

/-- Work on every half, in terms of the registers and the source of that half. -/
theorem eachHalf_yields (second : cap.config.SecondSource s2) {f : Nat → Operand → Lowering Unit}
    (step : ∀ h y, (cap.config.phys dst h).InFile n → (cap.config.phys s1 h).InFile n →
      y.VectorIn n → y.OffStack → (cap.config.temp h).InFile n → (f h y).Yields (cap.Offers n)) :
    (cap.eachHalf fun h => do
      let y ← .check (cap.config.half s2 h)
      f h y).Yields (cap.Offers n) := by
  refine .each fun h member => ?_
  have below : h < cap.config.halves := List.mem_range.mp member
  obtain ⟨y, found, inside, apart⟩ := second.half maps whole below
  exact .check found
    (step h y (maps.phys below into) (maps.phys below first) inside apart (maps.inFile_temp below))

theorem lower_logic_yields (coherent : cap.Coherent) (second : cap.config.SecondSource s2)
    (logical : op.isLogic = true) (binary : op ≠ .not) :
    (cap.lower (.logic op dst s1 s2)).Yields (cap.Offers n) := by
  refine .check (Config.checkSources_of_usable into first second) ?_
  refine eachHalf_yields into first maps whole second fun h y d x inside apart t => ?_
  dsimp only
  split
  · next native => exact .emit (.logic logical binary native d x inside apart)
  · refine .emitAll fun p member => ?_
    exact offers_of_complementPart d x inside apart t coherent.conjoins coherent.disjoins
      (part_of_complementThen _ _ _ _ _ p member)

theorem lower_arith_yields (second : cap.config.SecondSource s2)
    (arithmetic : op ∈ [.add, .sub, .mul, .div, .ads, .sbs, .min, .max])
    (supported : cap.checkSupported op e = .ok ()) :
    (cap.lower (.arith op e dst s1 s2)).Yields (cap.Offers n) := by
  refine .check supported (.check (Config.checkSources_of_usable into first second) ?_)
  refine eachHalf_yields into first maps whole second fun h y d x inside apart _ => ?_
  exact .emit (.arith arithmetic supported d x inside apart)

theorem lower_shiftEach_yields (second : cap.config.SecondSource s2) (shifts : op = .svl ∨ op = .svr)
    (supported : cap.checkSupported op e = .ok ()) :
    (cap.lower (.shiftEach op e dst s1 s2)).Yields (cap.Offers n) := by
  refine .check supported (.check (Config.checkSources_of_usable into first second) ?_)
  refine eachHalf_yields into first maps whole second fun h y d x inside apart _ => ?_
  exact .emit (.shiftEach shifts supported d x inside apart)

theorem lower_compare_yields (second : cap.config.SecondSource s2)
    (routed : cap.route op e ≠ .none) :
    (cap.lower (.compare op e dst s1 s2)).Yields (cap.Offers n) := by
  refine .check (Config.checkSources_of_usable into first second) ?_
  dsimp only
  rw [if_neg routed]
  refine eachHalf_yields into first maps whole second fun h y d x inside apart t => ?_
  obtain ⟨comparator, valid⟩ := Route.defined_of_routed routed
  refine .emitAll fun p member => ?_
  exact offers_of_part d x inside apart t comparator valid ((Route.justified routed).part p member)

omit whole in
theorem lower_not_yields : (cap.lower (.not dst s1)).Yields (cap.Offers n) := by
  refine .check (Config.checkVector_of_usable into) (.check (Config.checkVector_of_usable first) ?_)
  refine .each fun h member => ?_
  have below : h < cap.config.halves := List.mem_range.mp member
  exact .emit (.not (maps.phys below into) (maps.phys below first))

omit whole in
/-- The count of a shift is the same in every half. -/
theorem lower_shift_yields (counted : cap.config.ShiftCount s2) (shifts : op = .shl ∨ op = .shr)
    (supported : cap.checkSupported op e = .ok ()) :
    (cap.lower (.shift op e dst s1 s2)).Yields (cap.Offers n) := by
  refine .check supported (.check (Config.checkVector_of_usable into) ?_)
  refine .check (Config.checkVector_of_usable first) ?_
  refine .check (a := ()) ?_ (.each fun h member => ?_)
  · cases s2 with
    | imm i => exact counted
    | mem m => exact counted.1
    | reg r => exact counted.elim
  have below : h < cap.config.halves := List.mem_range.mp member
  exact .emit (.shift shifts supported (maps.phys below into) (maps.phys below first) counted)

/-- An operation that is reported as supported is lowered to what the backend offers. -/
theorem lower_yields (coherent : cap.Coherent) (fits : cap.config.Fits op s2)
    (formed : (Instr.ofOp op e dst s1 s2 : Instr LabelRef) ≠ .unformed op)
    (reported : cap.support op e ≠ .unsupported) :
    (cap.lower (.ofOp op e dst s1 s2)).Yields (cap.Offers n) := by
  have supported (other : op.isCompare = false) : cap.checkSupported op e = .ok () :=
    (support_ne_unsupported other e).1 reported
  cases op with
  | none | mov | mmv | mkj | other => exact absurd rfl formed
  | and | ann | orr | orn | xor =>
    exact lower_logic_yields into first maps whole coherent fits rfl (by decide)
  | not => exact lower_not_yields into first maps
  | add | sub | mul | div | ads | sbs | min | max =>
    exact lower_arith_yields into first maps whole fits (by decide) (supported rfl)
  | shl => exact lower_shift_yields into first maps fits (.inl rfl) (supported rfl)
  | shr => exact lower_shift_yields into first maps fits (.inr rfl) (supported rfl)
  | svl => exact lower_shiftEach_yields into first maps whole fits (.inl rfl) (supported rfl)
  | svr => exact lower_shiftEach_yields into first maps whole fits (.inr rfl) (supported rfl)
  | ceq | cne | clt | cle | cgt | cge =>
    have routed := (support_compare_ne_unsupported coherent.direct rfl).1 reported
    exact lower_compare_yields into first maps whole fits routed

end

/-- An operation that is not reported as supported is refused before anything is issued. -/
theorem lower_refuses (coherent : cap.Coherent) (valid : e.valid = true)
    (fits : cap.config.Fits op s2)
    (formed : (Instr.ofOp op e dst s1 s2 : Instr LabelRef) ≠ .unformed op)
    (missing : cap.support op e = .unsupported) :
    ∃ err : Error, cap.lower (.ofOp op e dst s1 s2) = ⟨[], .error (.error err)⟩ ∧
      Refusal err := by
  have checked (other : op.isCompare = false) :
      ∃ err, cap.checkSupported op e = .error err ∧ Refusal err := by
    refine checkSupported_refuses fun passed => ?_
    exact (support_ne_unsupported other e).2 passed missing
  have defined (logical : op.isLogic = true) : op.applies e = true := by
    cases op <;> simp_all [Op.isLogic, Op.applies]
  -- an operation on bits passes the check, so it is never missing
  have impossible (logical : op.isLogic = true) (other : op.isCompare = false) : False := by
    refine (support_ne_unsupported other e).2 (checkSupported_eq_ok.2 ⟨defined logical, ?_⟩) missing
    exact coherent.logic op e logical
  have compared (comparator : op.isCompare = true) (second : cap.config.SecondSource s2) :
      ∃ err, cap.lower (.compare op e dst s1 s2) = ⟨[], .error (.error err)⟩ ∧ Refusal err := by
    have unrouted : cap.route op e = .none := Decidable.byContradiction fun routed =>
      (support_compare_ne_unsupported coherent.direct comparator).2 routed missing
    refine ⟨.ofCause (.unsupported (.operation op e cap.config.name)), ?_, .inl rfl⟩
    dsimp only [lower]
    rw [Config.checkSources_of_usable into first second]
    exact if_pos unrouted
  cases op with
  | none | mov | mmv | mkj | other => exact absurd rfl formed
  | and | ann | orr | orn | xor | not => exact (impossible rfl rfl).elim
  | add | sub | mul | div | ads | sbs | min | max | shl | shr | svl | svr =>
    obtain ⟨err, failed, kind⟩ := checked rfl
    refine ⟨err, ?_, kind⟩
    dsimp only [Instr.ofOp, lower]
    rw [failed]
    rfl
  | ceq | cne | clt | cle | cgt | cge =>
    exact compared rfl fits

end

end Capability

/-! ## Reliable backends -/

section
variable {σ : Type} {b : Backend σ} {n : Nat}

/-- On operands that fit, an operation is issued exactly if it is reported as supported. Otherwise the
error that is kept says so, or that the operation is not defined on the element type. -/
def Backend.Truthful (b : Backend σ) : Prop :=
  ∀ (op : Op) (e : Elem) (dst s1 : Reg) (s2 : Operand) (a : Assembler σ),
    Instr.ofOp op e dst s1 s2 ≠ (.unformed op : Instr LabelRef) → e.valid = true →
    b.config.Usable dst → b.config.Usable s1 → b.config.Fits op s2 → a.error? = none →
    (a.issue b (.ofOp op e dst s1 s2)).1 = .ok () ∧
    ((a.issue b (.ofOp op e dst s1 s2)).2.error? = none ↔ b.support op e ≠ .unsupported) ∧
    ∀ err ∈ (a.issue b (.ofOp op e dst s1 s2)).2.error?, Refusal err

/-- The report is coherent, and nothing that is offered is refused. -/
structure Backend.Reliable (b : Backend σ) (n : Nat) : Prop where
  coherent : b.Coherent
  steady : b.Steady
  issue : ∀ p, b.Offers n p → ∀ s err, (b.issue p s).1 ≠ .error (.error err)

theorem Backend.Reliable.issueAll (reliable : b.Reliable n) {ps : List Primitive}
    (offered : ∀ p ∈ ps, b.Offers n p) (settled : ∀ p ∈ ps, p.Settled) (s : σ) :
    ∃ s', b.issueAll ps s = (.ok (), s') := by
  induction ps generalizing s with
  | nil => exact ⟨s, rfl⟩
  | cons p ps ih =>
    have total := reliable.issue p (offered p List.mem_cons_self) s
    have steady := reliable.steady p (settled p List.mem_cons_self) s
    rw [Backend.issueAll]
    split
    · exact ih (fun q later => offered q (List.mem_cons_of_mem p later))
        (fun q later => settled q (List.mem_cons_of_mem p later)) _
    · next fault s' failed =>
      rw [failed] at total steady
      cases fault with
      | error err => exact absurd rfl (total err)
      | trap => exact absurd rfl steady

theorem Assembler.issue_refused {a : Assembler σ} {i : Instr LabelRef} {err : Error}
    (clean : a.error? = none) (refused : b.lower i = ⟨[], .error (.error err)⟩) :
    a.issue b i = (.ok (), ⟨a.state, a.count + 1,
      some (err.within (.instruction (a.count + 1) i.name))⟩) := by
  simp only [issue, clean, refused, Backend.issueAll]
  rfl

theorem Backend.Reliable.truthful (reliable : b.Reliable n) (maps : b.config.Maps n)
    (whole : 4 ∣ b.config.physBytes) : b.Truthful := by
  intro op e dst s1 s2 a formed valid into first fits clean
  by_cases missing : b.support op e = .unsupported
  · obtain ⟨err, refused, kind⟩ :=
      Capability.lower_refuses into first reliable.coherent valid fits formed missing
    rw [Assembler.issue_refused clean refused]
    refine ⟨rfl, iff_of_false nofun (not_not_intro missing), ?_⟩
    rintro _ ⟨⟩
    exact kind
  · have yields := Capability.lower_yields into first maps whole reliable.coherent fits formed missing
    have unlabelled : (Instr.ofOp op e dst s1 s2 : Instr LabelRef).label? ≠ some none := by
      cases op <;> exact nofun
    have settled := (b.lower_safe unlabelled).items
    obtain ⟨s, issued⟩ := reliable.issueAll yields.items settled a.state
    rw [Assembler.issue_eq clean yields.ended issued]
    exact ⟨rfl, iff_of_true rfl missing, fun _ => nofun⟩

end

/-- The recording backend checks no registers, so that any file will do. -/
theorem Program.reliable (cfg : Config) (limits : Limits) (n : Nat) :
    (backend cfg limits).Reliable n where
  steady := steady cfg limits
  coherent :=
    { conjoins := by simp [backend, supports, Op.isLogic]
      disjoins := by simp [backend, supports, Op.isLogic]
      logic := by
        intro op e logical
        show supports limits op e ≠ _
        unfold supports
        split
        · decide
        · simp [logical]
      direct := fun c e applies _ => supports_ne_unsupported limits applies }
  issue := by
    intro p offered s err
    have passed : check limits p = .ok () := by
      cases offered with
      | move | not | shift | shiftEach => rfl
      | logic logical binary => exact if_pos (by simp [logical, binary])
      | arith _ supported => exact if_pos (Capability.checkSupported_eq_ok.1 supported).1
      | compare _ _ native => exact if_pos native
    cases offered <;> simp [backend, issue, passed]

namespace Msa

open Emission

variable {cfg : Config}

theorem vectorSource_total {o : Operand} (inside : o.VectorIn 32) : (vectorSource cfg o).Total := by
  cases o with
  | reg r =>
    obtain ⟨n, found⟩ := vectorNum_ok inside
    rw [vectorSource, found]
    exact .pure n
  | mem m => exact (vectorSource_mem m).1
  | imm i => exact inside.elim

theorem selectThree_total {op : Op} {e : Elem} {f : Lanewise} (form : Lanewise.ofOp? op e = some f)
    {dst s1 : Reg} {s2 : Operand} (into : dst.InFile 32) (first : s1.InFile 32)
    (second : s2.VectorIn 32) : (selectThree cfg op e dst s1 s2).Total := by
  obtain ⟨d, dst⟩ := vectorNum_ok into
  obtain ⟨x, left⟩ := vectorNum_ok first
  refine .check dst (.check left ?_)
  rw [form]
  exact (vectorSource_total second).bind fun _ _ => put_total _

/-- Every lanewise operation that applies to an element type has an encoding on it. -/
theorem exists_ofOp? {op : Op} {e : Elem}
    (lanewise : op ∈ [.add, .sub, .mul, .div, .ads, .sbs, .min, .max] ∨ op = .svl ∨ op = .svr)
    (applies : op.applies e = true) : ∃ f, Lanewise.ofOp? op e = some f := by
  cases float : e.isFloat <;> cases op <;> simp_all [Lanewise.ofOp?, Op.applies]

theorem exists_ofOp?_of_nativeCompare {c : Op} {e : Elem} (native : nativeCompare c e = true) :
    ∃ f, Lanewise.ofOp? c e = some f := by
  cases float : e.isFloat <;> cases c <;> simp_all [Lanewise.ofOp?, nativeCompare]

theorem select_total {p : Primitive} (offered : (capability cfg).Offers 32 p) :
    (select cfg p).Total := by
  cases offered with
  | @move d y dst src =>
    obtain ⟨n, into⟩ := vectorNum_ok dst
    cases y with
    | reg r =>
      obtain ⟨k, from'⟩ := vectorNum_ok src
      refine .check into (.check from' ?_)
      split
      · exact .emitAll _
      · exact put_total _
    | mem m => exact .check into (accessVector_total _ _ m)
    | imm i => exact src.elim
  | not dst src =>
    obtain ⟨n, into⟩ := vectorNum_ok dst
    obtain ⟨k, source⟩ := vectorNum_ok src
    exact .check into (.check source (put_total _))
  | @logic op _ _ _ logical binary native dst first second =>
    obtain ⟨n, into⟩ := vectorNum_ok dst
    obtain ⟨k, left⟩ := vectorNum_ok first
    refine .check into (.check left ((vectorSource_total second).bind fun y _ => ?_))
    cases op with
    | and | orr | xor => exact put_total _
    | ann | orn => cases native
    | not => exact absurd rfl binary
    | _ => cases logical
  | arith arithmetic supported dst first second =>
    have applies := (Capability.checkSupported_eq_ok.1 supported).1
    obtain ⟨f, form⟩ := exists_ofOp? (.inl arithmetic) applies
    exact selectThree_total form dst first second
  | shiftEach shifts supported dst src counts =>
    have applies := (Capability.checkSupported_eq_ok.1 supported).1
    obtain ⟨f, form⟩ := exists_ofOp? (.inr shifts) applies
    exact selectThree_total form dst src counts
  | @shift _ _ _ _ count _ _ dst src counted =>
    obtain ⟨n, into⟩ := vectorNum_ok dst
    obtain ⟨k, source⟩ := vectorNum_ok src
    refine .check into (.check source ?_)
    cases count with
    | imm i => exact put_total _
    | mem m =>
      refine (accessVector_total _ _ m).bind fun _ _ => ?_
      exact (put_total _).bind fun _ _ => put_total _
    | reg r => exact counted.elim
  | compare _ _ native dst first second =>
    obtain ⟨f, form⟩ := exists_ofOp?_of_nativeCompare native
    dsimp only [select, selectCompare]
    rw [if_pos (show nativeCompare _ _ = true from native)]
    exact selectThree_total form dst first second

theorem reliable (cfg : Config) : (backend cfg).Reliable 32 where
  steady := steady cfg
  coherent :=
    { conjoins := rfl
      disjoins := rfl
      logic := by
        intro op e logical
        show supports op e ≠ _
        cases op <;> simp_all [supports, Op.isLogic]
      direct := by
        intro c e applies native
        show supports c e ≠ _
        cases c <;> simp_all [supports, nativeCompare, capability, backend] }
  issue := by
    intro p offered s err
    have total := select_total offered
    cases offered <;> exact total err

end Msa

namespace X86

open Emission

variable {cfg : Config}

theorem checkVectorMem_of_inRange {m : Mem} (inside : m.InRange) (apart : m.base ≠ Reg.stack) :
    checkVectorMem m = .ok () := by
  have other {r : Reg} (base : r.InBase) (different : r ≠ Reg.stack) :
      r.index ≠ Reg.stack.index := by
    intro same
    apply different
    cases r
    exact congr (congrArg Reg.mk base.1) same
  rw [checkVectorMem, if_neg (other inside.base apart), if_neg]
  intro indexed
  obtain ⟨r, given, same⟩ := Option.map_eq_some_iff.mp indexed
  obtain ⟨base, different⟩ := inside.index r given
  exact other base different same

theorem sourced_of_vectorIn {o : Operand} (inside : o.VectorIn 16) (apart : o.OffStack) :
    Sourced o := by
  cases o with
  | reg r => exact inside
  | mem m => exact checkVectorMem_of_inRange inside apart
  | imm i => exact inside.elim

section
variable {op : Op} {e : Elem} {p : Plan}

/-- What can be computed lane by lane always has a plan. -/
theorem exists_plan_of_scalarOp (can : scalarOp op e = true) : ∃ p, planOf? cfg op e = some p := by
  unfold planOf? planFor?
  dsimp only
  rw [if_pos can]
  repeat' split
  all_goals exact ⟨_, rfl⟩

/-- The comparators with an encoding have a plan at every level. -/
theorem exists_plan_of_nativeCompare (level : Level.sse2 ≤ cfg.level)
    (native : nativeCompare op e = true) : ∃ p, planOf? cfg op e = some p := by
  by_cases float : e.isFloat = true
  · obtain ⟨f, form⟩ : ∃ f, nativeForm? op e = some (f, Level.sse2) := by
      cases op <;> simp_all [nativeCompare, nativeForm?, floatForm?]
    refine ⟨⟨.none, cfg.physBytes, cfg.physBytes⟩, ?_⟩
    have reached : (Level.sse2 : Int) ≤ cfg.level := Int.ofNat_le.2 level
    simp [planOf?, planFor?, form, float, reached]
  · refine exists_plan_of_scalarOp ?_
    cases op <;> simp_all [nativeCompare, scalarOp]

theorem exists_plan_of_supported {op : Op} {e : Elem}
    (supported : (capability cfg).checkSupported op e = .ok ())
    (planned : op ∈ [.add, .sub, .mul, .div, .ads, .sbs, .min, .max] ∨
      op ∈ [.shl, .shr, .svl, .svr]) : ∃ p, planOf? cfg op e = some p := by
  obtain ⟨applies, reported⟩ := Capability.checkSupported_eq_ok.1 supported
  replace reported : supports cfg op e ≠ .unsupported := reported
  cases found : planOf? cfg op e with
  | some p => exact ⟨p, rfl⟩
  | none =>
    refine absurd ?_ reported
    cases op <;> simp_all [supports, Op.isCompare]

/-- The steps of a plan fill a register of sixteen or 32 bytes. -/
theorem splits_of_planOf? (bytes : cfg.physBytes = 16 ∨ cfg.physBytes = 32) (valid : e.valid = true)
    (found : planOf? cfg op e = some p) (expanded : p.unit ≠ .none) : p.Splits := by
  rcases planOf?_cases found with none | rfl | ⟨rfl, _⟩
  · exact absurd none expanded
  · refine ⟨(by decide : (0 : Int) < 16), ?_⟩
    rcases bytes with same | same <;> simp [same]
  · have eight := Elem.bytes_dvd valid
    have whole : e.bytes ∣ cfg.physBytes := by
      rcases bytes with same | same <;> rw [same] <;> exact Nat.dvd_trans eight (by decide)
    refine ⟨Int.natCast_pos.2 (Elem.bytes_pos valid), ?_⟩
    exact Int.tmod_eq_zero_of_dvd (Int.natCast_dvd_natCast.2 whole)

end

section
variable (bytes : cfg.physBytes = 16 ∨ cfg.physBytes = 32)
include bytes

/-- An operation on two sources that has a plan: as it stands or expanded. -/
theorem two_total {op : Op} {e : Elem} {p : Plan} (valid : e.valid = true)
    (found : planOf? cfg op e = some p) (paired : op ≠ .shl ∧ op ≠ .shr) {dst s1 : Reg} {s2 : Operand}
    (into : dst.InFile 16) (first : s1.InFile 16) (second : s2.VectorIn 16) (apart : s2.OffStack)
    {f : Form} {whole : RegNum → RegNum → Rm → Selection Unit} (total : ∀ d x y, (whole d x y).Total) :
    (do
      let d ← Emission.check (vectorNum dst)
      let x ← Emission.check (vectorNum s1)
      let y ← Emission.check (vectorSource s2)
      let p ← Emission.check (planOf cfg op e)
      if p.unit = .none then whole d x y else expand cfg p op e f d x y : Selection Unit).Total := by
  obtain ⟨d, dst⟩ := vectorNum_ok into
  obtain ⟨x, left⟩ := vectorNum_ok first
  obtain ⟨y, right⟩ := vectorSource_ok (sourced_of_vectorIn second apart)
  refine .check dst (.check left (.check right (.check (planOf_eq_ok.2 found) ?_)))
  split
  · exact total d x y
  · next expanded =>
    have splits := splits_of_planOf? bytes valid found expanded
    exact expand_total found expanded splits (fun _ _ => paired) _ _ _ _

theorem selectShift_total {op : Op} {e : Elem} {p : Plan} (valid : e.valid = true)
    (found : planOf? cfg op e = some p) {dst src : Reg} {count : Operand} (into : dst.InFile 16)
    (source : src.InFile 16) (counted : cfg.ShiftCount count) :
    (selectShift cfg op e dst src count).Total := by
  obtain ⟨d, dst⟩ := vectorNum_ok into
  obtain ⟨x, src⟩ := vectorNum_ok source
  have expansion (expanded : p.unit ≠ .none) (c : Count) : (expandShift cfg p op e d x c).Total :=
    expandShift_total found expanded (splits_of_planOf? bytes valid found expanded) d x c
  refine .check dst (.check src (.check (planOf_eq_ok.2 found) ?_))
  cases count with
  | reg r => exact counted.elim
  | imm i =>
    dsimp only
    split
    · exact .emitAll _
    · next expanded => exact expansion expanded _
  | mem m =>
    have reaches : cfg.Reaches m := counted
    refine .check (checkVectorMem_of_inRange reaches.inRange reaches.2.1) ?_
    split
    · exact .emitAll _
    · next expanded => exact expansion expanded _

theorem select_total (level : Level.sse2 ≤ cfg.level) {p : Primitive}
    (offered : (capability cfg).Offers 16 p) : (select cfg p).Total := by
  have valid {op : Op} {e : Elem} (supported : (capability cfg).checkSupported op e = .ok ()) :
      e.valid = true := Op.valid_of_applies (Capability.checkSupported_eq_ok.1 supported).1
  cases offered with
  | @move d y dst src apart =>
    obtain ⟨n, into⟩ := vectorNum_ok dst
    obtain ⟨x, source⟩ := vectorSource_ok (sourced_of_vectorIn src apart)
    refine .check into (.check source ?_)
    cases x with
    | mem m => exact .emit _
    | reg r => exact .emitAll _
  | not dst src =>
    obtain ⟨n, into⟩ := vectorNum_ok dst
    obtain ⟨x, source⟩ := vectorNum_ok src
    exact .check into (.check source (.emitAll _))
  | @logic op _ _ _ logical binary native dst first second apart =>
    obtain ⟨n, into⟩ := vectorNum_ok dst
    obtain ⟨x, left⟩ := vectorNum_ok first
    obtain ⟨y, right⟩ := vectorSource_ok (sourced_of_vectorIn second apart)
    refine .check into (.check left (.check right ?_))
    cases op with
    | and | ann | orr | xor => exact .emitAll _
    | orn => cases native
    | not => exact absurd rfl binary
    | _ => cases logical
  | @arith op e _ _ _ arithmetic supported dst first second apart =>
    have paired : op ≠ .shl ∧ op ≠ .shr := by
      constructor <;> rintro rfl <;> simp at arithmetic
    obtain ⟨p, found⟩ := exists_plan_of_supported supported (.inl arithmetic)
    exact two_total bytes (valid supported) found paired dst first second apart
      fun _ _ _ => .emitAll _
  | shift shifts supported dst src counted =>
    obtain ⟨p, found⟩ := exists_plan_of_supported supported
      (.inr (by rcases shifts with rfl | rfl <;> decide))
    exact selectShift_total bytes (valid supported) found dst src counted
  | shiftEach shifts supported dst src counts apart =>
    obtain ⟨p, found⟩ := exists_plan_of_supported supported
      (.inr (by rcases shifts with rfl | rfl <;> decide))
    exact two_total bytes (valid supported) found (by rcases shifts with rfl | rfl <;> decide)
      dst src counts apart fun _ _ _ => .emitAll _
  | @compare c e _ _ _ comparator valid native dst first second apart =>
    obtain ⟨p, found⟩ := exists_plan_of_nativeCompare level native
    dsimp only [select, selectCompare]
    rw [if_pos (show nativeCompare _ _ = true from native)]
    have paired : c ≠ .shl ∧ c ≠ .shr := by
      constructor <;> rintro rfl <;> cases comparator
    exact two_total bytes valid found paired dst first second apart fun _ _ _ => .emitAll _

theorem reliable (level : Level.sse2 ≤ cfg.level) : (backend cfg).Reliable 16 where
  steady := steady cfg
  coherent :=
    { conjoins := rfl
      disjoins := rfl
      logic := by
        intro op e logical
        show supports cfg op e ≠ _
        cases op <;> simp_all [supports, Op.isLogic]
      direct := by
        intro c e applies native
        obtain ⟨p, found⟩ := exists_plan_of_nativeCompare level native
        show supports cfg c e ≠ _
        replace native : nativeCompare c e = true := native
        have reported (comparator : c.isCompare = true) : supports cfg c e ≠ .unsupported := by
          cases c <;> simp_all [supports, Op.isCompare] <;> split <;> decide
        refine reported ?_
        cases c <;> simp_all [nativeCompare, Op.isCompare] }
  issue := by
    intro p offered s err
    have total := select_total bytes level offered
    cases offered <;> exact total err

end

end X86

/-- The report of every backend is true: of the x86 encoder at any level, of the MIPS encoder, and of
the recording backend under any limits. -/
theorem support_truthful (cfg : Config) (bytes : cfg.physBytes = 16 ∨ cfg.physBytes = 32) :
    (Level.sse2 ≤ cfg.level → cfg.Maps 16 → (X86.backend cfg).Truthful) ∧
    (cfg.Maps 32 → (Msa.backend cfg).Truthful) ∧
    ∀ limits n, cfg.Maps n → (Program.backend cfg limits).Truthful := by
  have whole : 4 ∣ cfg.physBytes := by rcases bytes with same | same <;> rw [same] <;> decide
  refine ⟨?_, ?_, ?_⟩
  · intro level maps
    exact (X86.reliable bytes level).truthful maps whole
  · intro maps
    exact (Msa.reliable cfg).truthful maps whole
  · intro limits n maps
    exact (Program.reliable cfg limits n).truthful maps whole

/-- On the lowest level of x86, a comparison of unsigned bytes is put together from a minimum and from
equality in both halves, and there is no saturating addition of 32 bits. -/
theorem support_truthful_sse2 :
    let cfg := Config.x86 Level.sse2 "sse2" "128x2" 16 2
    let b := X86.backend cfg
    let last : Operand := .mem (.indexed (.base 3) (.base 5) ⟨0x7FFFFFEC, .dv⟩)
    let issued (op : Op) (e : Elem) := ((Assembler.start Buffer.empty).issue b
      (.ofOp op e (.xmm 1) (.xmm 5) last)).2.error?
    cfg.Maps 16 ∧ cfg.Fits .cge last ∧ b.support .cge .u8 = .derived ∧ issued .cge .u8 = none ∧
      b.support .ads .s32 = .unsupported ∧ ∃ err ∈ issued .ads .s32, Refusal err := by
  intro cfg b last issued
  have maps : cfg.Maps 16 := by
    refine ⟨by decide, ?_, ?_⟩
    · intro h half i least most
      simp only [cfg, Config.x86] at half most ⊢
      omega
    · intro h half
      simp only [cfg, Config.x86] at half ⊢
      omega
  have fits : cfg.Fits .cge last := ⟨rfl, by decide, by decide⟩
  have dst : cfg.Usable (.xmm 1) := ⟨rfl, by decide, by decide⟩
  have src : cfg.Usable (.xmm 5) := ⟨rfl, by decide, by decide⟩
  have truthful : b.Truthful := (support_truthful cfg (.inl rfl)).1 (Nat.le_refl _) maps
  obtain ⟨_, clean, _⟩ :=
    truthful .cge .u8 _ _ last (.start Buffer.empty) (by simp [Instr.ofOp]) rfl dst src fits rfl
  obtain ⟨_, refused, kind⟩ :=
    truthful .ads .s32 _ _ last (.start Buffer.empty) (by simp [Instr.ofOp]) rfl dst src fits rfl
  have reported : b.support .cge .u8 = .derived := rfl
  have missing : b.support .ads .s32 = .unsupported := rfl
  refine ⟨maps, fits, reported, clean.2 (by rw [reported]; decide), missing, ?_⟩
  cases kept : issued .ads .s32 with
  | none => exact absurd missing (refused.1 kept)
  | some err => exact ⟨err, rfl, kind err kept⟩

end LaneAsm
