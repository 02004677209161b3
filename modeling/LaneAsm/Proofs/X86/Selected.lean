import LaneAsm.Proofs.Settled
import LaneAsm.X86.Backend

/-!
What the x86 encoder selects. The instructions of a primitive are jumps to the label of the primitive
or plain (`select_safe`), the opcode of a plain one is not taken for a prefix, and no selection ends
in a trap, so that the encoder is steady.
-/
namespace LaneAsm

/-- Only the two shifts have a count for each lane. -/
def Primitive.Regular : Primitive → Prop
  | .shiftEach op _ _ _ _ => op = .svl ∨ op = .svr
  | _ => True

namespace X86

open Emission

/-! ## Forms -/

/-- Whether a byte starts an instruction without being its opcode: the prefixes and the escape. -/
def leads (b : UInt8) : Bool :=
  b == 0x66 || b == 0x67 || b == 0xF2 || b == 0xF3 || b == 0x0F || b == 0xC4 || b == 0xC5
    || b &&& 0xF0 == 0x40

namespace Form

/-- The opcode of a form is read as an opcode of its map. -/
def Legacy (f : Form) : Prop :=
  match f.map with
  | .one => leads f.opcode = false
  | .m0F => f.opcode ≠ 0x38 ∧ f.opcode ≠ 0x3A
  | _ => True

/-- The same, of a form with escape bytes. -/
def Vector (f : Form) : Prop := f.Legacy ∧ f.map ≠ .one

instance (f : Form) : Decidable f.Legacy := by
  unfold Legacy
  split <;> infer_instance

instance (f : Form) : Decidable f.Vector := inferInstanceAs (Decidable (_ ∧ _))

@[simp] theorem legacy_one (o : UInt8) (wide : Bool) : (one o wide).Legacy ↔ leads o = false :=
  Iff.rfl

@[simp] theorem legacy_m0F (o : UInt8) : (m0F o).Legacy ↔ o ≠ 0x38 ∧ o ≠ 0x3A := Iff.rfl

@[simp] theorem legacy_sized (f : Form) (wide : Bool) : (f.sized wide).Legacy ↔ f.Legacy := Iff.rfl

end Form

theorem vector_of_formByBits {e : Elem} {b8 b16 b32 b64 : UInt8} {f : Form} {level : Level}
    (other : ∀ b ∈ [b8, b16, b32, b64], b ≠ 0x38 ∧ b ≠ 0x3A)
    (found : formByBits e b8 b16 b32 b64 = some (f, level)) : f.Vector := by
  unfold formByBits at found
  extract_lets opcode at found
  have member : opcode = 0 ∨ opcode ∈ [b8, b16, b32, b64] := by
    dsimp only [opcode]
    repeat' split
    all_goals simp
  split at found
  · cases found
  · next given =>
    cases found
    exact ⟨other opcode (member.resolve_left given), nofun⟩

theorem vector_of_floatForm? {op : Op} {e : Elem} {f : Form} {level : Level}
    (found : floatForm? op e = some (f, level)) : f.Vector := by
  obtain ⟨o, opcode, same⟩ := Option.map_eq_some_iff.1 found
  obtain rfl := congrArg Prod.fst same
  refine ⟨?_, nofun⟩
  show o ≠ 0x38 ∧ o ≠ 0x3A
  split at opcode <;> cases opcode <;> decide

theorem vector_of_minMaxForm? {op : Op} {e : Elem} {f : Form} {level : Level}
    (found : minMaxForm? op e = some (f, level)) : f.Vector := by
  unfold minMaxForm? at found
  by_cases greatest : op = .max
  · simp only [greatest, if_true] at found
    split at found <;> cases found <;> decide
  · simp only [greatest, if_false] at found
    split at found <;> cases found <;> decide

theorem vector_of_shiftEachForm? {op : Op} {e : Elem} {f : Form} {level : Level}
    (found : shiftEachForm? op e = some (f, level)) : f.Vector := by
  unfold shiftEachForm? at found
  dsimp only at found
  repeat' split at found
  all_goals cases found <;> exact ⟨trivial, nofun⟩

/-- Every form that encodes an operation. -/
theorem vector_of_nativeForm? {op : Op} {e : Elem} {f : Form} {level : Level}
    (found : nativeForm? op e = some (f, level)) : f.Vector := by
  unfold nativeForm? at found
  split at found
  · exact vector_of_floatForm? found
  · split at found
    case h_6 | h_7 => exact vector_of_minMaxForm? found
    case h_12 | h_13 => exact vector_of_shiftEachForm? found
    all_goals
      repeat' split at found
      all_goals first
        | exact vector_of_formByBits (by decide +kernel) found
        | cases found <;> decide

theorem vector_of_planOf {cfg : Config} {op : Op} {e : Elem} {p : Plan}
    (found : planOf cfg op e = .ok p) (whole : p.unit ≠ .scalar) : (nativeForm op e).Vector := by
  have plan : planOf? cfg op e = some p := by
    unfold planOf at found
    split at found
    · next found' => rw [found', Except.ok.inj found]
    · cases found
  unfold planOf? planFor? at plan
  dsimp only at plan
  rw [nativeForm]
  cases form : nativeForm? op e with
  | some found => exact vector_of_nativeForm? form
  | none =>
    rw [form] at plan
    dsimp only at plan
    split at plan
    · obtain rfl := Option.some.inj plan
      exact absurd rfl whole
    · cases plan

/-- A shift with a count for each lane has no form below the level that has it at full width. -/
theorem unit_of_shiftEach {cfg : Config} {op : Op} {e : Elem} {p : Plan}
    (found : planOf cfg op e = .ok p) (each : op = .svl ∨ op = .svr) : p.unit ≠ .vector := by
  have plan : planOf? cfg op e = some p := by
    unfold planOf at found
    split at found
    · next found' => rw [found', Except.ok.inj found]
    · cases found
  have late (f : Form) (level : Level) (form : nativeForm? op e = some (f, level)) :
      level = Level.avx2 := by
    rcases each with rfl | rfl
    all_goals
      unfold nativeForm? at form
      split at form
      · cases form
      · unfold shiftEachForm? at form
        dsimp only at form
        repeat' split at form
        all_goals cases form <;> rfl
  unfold planOf? planFor? at plan
  dsimp only at plan
  intro vector
  have notScalar : ¬ (if scalarOp op e then some (⟨.scalar, cfg.physBytes, e.bytes⟩ : Plan) else none)
      = some p := by
    split
    · rintro ⟨⟩
      cases vector
    · exact nofun
  split at plan
  · next f level form =>
    obtain rfl := late f level form
    split at plan
    · split at plan
      · obtain rfl := Option.some.inj plan
        cases vector
      · split at plan
        · next early => exact absurd early (by decide)
        · exact notScalar plan
    · exact notScalar plan
  · exact notScalar plan

/-! ## Instructions -/

/-- An instruction that is no jump, with an opcode that is read as one; in VEX where `R` holds. -/
def Insn.Plain (R : Prop) : Insn → Prop
  | .legacy f _ _ _ => f.Legacy
  | .vex f _ _ _ _ _ => R → f.Vector
  | .jcc _ _ | .jmp _ => False
  | _ => True

/-- An instruction that is plain or jumps to a given label. -/
def Insn.Of (R : Prop) (target : Option LabelRef) (i : Insn) : Prop :=
  i.Plain R ∨ ∃ l, target = some l ∧ i.target? = some l

section
variable {R : Prop} {cfg : Config} {e : Elem}

@[simp] theorem plain_legacy (f : Form) (r : RegNum) (x : Rm) (imm : List UInt8) :
    (Insn.legacy f r x imm).Plain R ↔ f.Legacy := Iff.rfl

@[simp] theorem plain_vex (f : Form) (long : Bool) (r v : RegNum) (x : Rm) (imm : List UInt8) :
    (Insn.vex f long r v x imm).Plain R ↔ (R → f.Vector) := Iff.rfl

@[simp] theorem plain_push (r : RegNum) : (Insn.push r).Plain R := trivial

@[simp] theorem plain_pop (r : RegNum) : (Insn.pop r).Plain R := trivial

@[simp] theorem plain_movImm (r : RegNum) (v : UInt32) : (Insn.movImm r v).Plain R := trivial

@[simp] theorem plain_cmpImm (v : UInt32) : (Insn.cmpImm v).Plain R := trivial

theorem plain_op2 {f : Form} (vector : f.Vector) (long : Bool) (dst : RegNum) (x : Rm) :
    (op2 cfg f long dst x).Plain R := by
  unfold op2
  split
  · exact fun _ => vector
  · exact vector.1

@[simp] theorem plain_load (long : Bool) (dst : RegNum) (m : Mem) :
    (load cfg long dst m).Plain R := plain_op2 (by decide) ..

@[simp] theorem plain_store (long : Bool) (m : Mem) (src : RegNum) :
    (store cfg long m src).Plain R := plain_op2 (by decide) ..

theorem plain_copy (long : Bool) (dst src : RegNum) : ∀ i ∈ copy cfg long dst src, i.Plain R := by
  unfold copy
  split
  · exact List.forall_mem_nil _
  · exact List.forall_mem_singleton.2 (plain_op2 (by decide) ..)

theorem plain_op3 {f : Form} (vector : f.Vector) (long commutative : Bool) (dst s1 : RegNum)
    (s2 : Rm) (imm : List UInt8) : ∀ i ∈ op3 cfg f long commutative dst s1 s2 imm, i.Plain R := by
  have last (x : Rm) : ∀ i ∈ [Insn.legacy f dst x imm], i.Plain R :=
    List.forall_mem_singleton.2 vector.1
  unfold op3
  split
  · exact List.forall_mem_singleton.2 fun _ => vector
  split
  · exact last _
  split
  · split
    · exact last _
    · simp only [List.forall_mem_append]
      exact ⟨⟨plain_copy _ _ _, plain_copy _ _ _⟩, last _⟩
  · exact List.forall_mem_append.2 ⟨plain_copy _ _ _, last _⟩

theorem plain_setAll (r : RegNum) : ∀ i ∈ setAll cfg r, i.Plain R := by
  unfold setAll
  split
  · exact List.forall_mem_singleton.2 fun _ => by decide
  · exact plain_op3 (by decide) _ _ _ _ _ _

@[simp] theorem plain_gpRegReg {opcode : UInt8} (w : Bool) (dst src : RegNum) :
    (gpRegReg opcode w dst src).Plain R ↔ leads opcode = false := Iff.rfl

@[simp] theorem plain_gpByte (w : Bool) (digit dst : RegNum) (v : UInt8) :
    (gpByte w digit dst v).Plain R := (rfl : leads 0x83 = false)

@[simp] theorem plain_loadLane (r : RegNum) (m : Mem) : (loadLane e r m).Plain R := by
  show Form.Legacy (if _ then _ else _)
  repeat' split
  all_goals first | decide | exact (rfl : leads 0x8B = false)

@[simp] theorem plain_storeLane (m : Mem) (r : RegNum) : (storeLane e m r).Plain R := by
  show Form.Legacy (if _ then _ else _)
  repeat' split
  all_goals first | decide | exact (rfl : leads 0x89 = false)

@[simp] theorem plain_shiftLane (op : Op) : (shiftLane op e).Plain R := (rfl : leads 0xD3 = false)

theorem plain_loadCount (m : Mem) : ∀ i ∈ loadCount e m, i.Plain R := by
  simp [loadCount]

theorem vector_shiftGroup (bits : Nat) : (Form.shiftGroup bits).Vector := by
  unfold Form.shiftGroup
  repeat' split
  all_goals decide

theorem plain_shiftImm (op : Op) (dst src : RegNum) (n : UInt8) :
    ∀ i ∈ shiftImm cfg op e dst src n, i.Plain R := by
  simp only [shiftImm]
  split
  · exact List.forall_mem_singleton.2 fun _ => vector_shiftGroup _
  · exact List.forall_mem_append.2
      ⟨plain_copy _ _ _, List.forall_mem_singleton.2 (vector_shiftGroup _).1⟩

theorem plain_stage (s1 : RegNum) (s2 : Rm) : ∀ i ∈ stage cfg s1 s2, i.Plain R := by
  cases s2 <;> simp [stage]

theorem plain_scalar {op : Op} {is : List Insn} (found : scalar op e = .ok is) :
    ∀ i ∈ is, i.Plain R := by
  unfold scalar at found
  dsimp only at found
  split at found <;> cases found
  all_goals simp [setLane]
  all_goals repeat' split
  all_goals decide

/-! ## Selections -/

/-- A selection of plain instructions that does not trap. -/
abbrev Quiet (R : Prop) (x : Selection Unit) : Prop := x.Safe True (Insn.Plain R)

theorem eachGroup_quiet {p : Plan} {step : Int → Selection Unit}
    (quiet : ∀ offset, Quiet R (step offset)) : Quiet R (eachGroup p step) :=
  .check fun _ _ => .each fun _ _ => quiet _

theorem aroundScalar_quiet {work : Selection Unit} (quiet : Quiet R work) :
    Quiet R (aroundScalar work) := by
  refine (Safe.emitAll ?_).bind fun _ _ => quiet.andFinally ?_
  · simp
  · simp

theorem expand_quiet (p : Plan) (op : Op) {f : Form} (dst s1 : RegNum) (s2 : Rm)
    (vector : R → p.unit = .vector → f.Vector) : Quiet R (expand cfg p op e f dst s1 s2) := by
  have loaded : Quiet R (.emit (load cfg (wide cfg) dst cfg.slots.a)) := .emit (plain_load ..)
  refine (Safe.emitAll (plain_stage _ _)).bind fun _ _ => ?_
  dsimp only
  split
  · next unit =>
    refine (eachGroup_quiet fun _ => .emitAll ?_).bind fun _ _ => loaded
    simpa using fun holds => vector holds unit
  · refine (aroundScalar_quiet (eachGroup_quiet fun _ => ?_)).bind fun _ _ => loaded
    refine (Safe.emitAll (by simp)).bind fun _ _ => .check fun is found => ?_
    exact (Safe.emitAll (plain_scalar found)).bind fun _ _ => .emit (plain_storeLane ..)
  · exact (Safe.fail _).bind fun _ _ => loaded

theorem expandShift_quiet (p : Plan) (op : Op) (dst src : RegNum) (count : Count)
    (vector : p.unit ≠ .scalar → (nativeForm op e).Vector) :
    Quiet R (expandShift cfg p op e dst src count) := by
  have loaded : Quiet R (.emit (load cfg (wide cfg) dst cfg.slots.a)) := .emit (plain_load ..)
  refine (Safe.emit (plain_store ..)).bind fun _ _ => ?_
  dsimp only
  split
  · next unit =>
    have groups {shift : Insn} (plain : shift.Plain R) :
        Quiet R (eachGroup p (fun offset => .emitAll [load cfg false tmp (cfg.slots.a.advance offset),
          shift, store cfg false (cfg.slots.a.advance offset) tmp]) >>= fun _ =>
          Emission.emit (load cfg (wide cfg) dst cfg.slots.a)) :=
      (eachGroup_quiet fun _ => .emitAll (by simpa using plain)).bind fun _ _ => loaded
    cases count with
    | imm n =>
      exact (Safe.emitAll (by simp)).bind fun _ _ => groups fun _ => vector_shiftGroup _
    | mem m =>
      refine (Safe.emitAll ?_).bind fun _ _ => groups fun _ => vector (by rw [unit]; decide)
      simp only [List.forall_mem_append]
      exact ⟨⟨by simp, plain_loadCount m⟩, by simp⟩
  · refine (aroundScalar_quiet ?_).bind fun _ _ => loaded
    refine (Safe.emitAll ?_).bind fun _ _ => eachGroup_quiet fun _ => .emitAll (by simp)
    cases count with
    | imm n => simp
    | mem m => exact plain_loadCount m
  · exact (Safe.fail _).bind fun _ _ => loaded

theorem selectBinary_quiet (op : Op) (dst s1 : Reg) (s2 : Operand) (imm : List UInt8) :
    Quiet R (selectBinary cfg op e dst s1 s2 imm) := by
  refine .check fun _ _ => .check fun _ _ => .check fun _ _ => .check fun p planned => ?_
  have vector := vector_of_planOf planned
  split
  · next whole => exact .emitAll (plain_op3 (vector (by rw [whole]; decide)) _ _ _ _ _ _)
  · exact expand_quiet _ _ _ _ _ fun _ unit => vector (by rw [unit]; decide)

theorem selectMove_quiet (dst src : Operand) : Quiet R (selectMove cfg dst src) := by
  cases dst with
  | reg d =>
    refine .check fun _ _ => .check fun y _ => ?_
    cases y with
    | reg s => exact .emitAll (plain_copy _ _ _)
    | mem m => exact .emit (plain_load ..)
  | mem m =>
    cases src with
    | reg s => exact .check fun _ _ => .check fun _ _ => .emit (plain_store ..)
    | _ => exact .fail _
  | imm i => exact .fail _

theorem selectLogic_quiet (op : Op) (dst s1 : Reg) (s2 : Operand) :
    Quiet R (selectLogic cfg op dst s1 s2) := by
  refine .check fun _ _ => .check fun _ _ => .check fun _ _ => ?_
  dsimp only
  split <;> first | exact .emitAll (plain_op3 (by decide) _ _ _ _ _ _) | exact .fail _

theorem selectNot_quiet (dst src : Reg) : Quiet R (selectNot cfg dst src) := by
  refine .check fun _ _ => .check fun _ _ => .emitAll ?_
  exact List.forall_mem_append.2 ⟨plain_setAll _, plain_op3 (by decide) _ _ _ _ _ _⟩

theorem selectShift_quiet (op : Op) (dst src : Reg) (count : Operand) :
    Quiet R (selectShift cfg op e dst src count) := by
  refine .check fun _ _ => .check fun _ _ => .check fun p planned => ?_
  have vector := vector_of_planOf planned
  cases count with
  | imm i =>
    dsimp only
    split
    · exact .emitAll (plain_shiftImm _ _ _ _)
    · exact expandShift_quiet _ _ _ _ _ vector
  | mem m =>
    refine .check fun _ _ => ?_
    split
    · next whole =>
      refine .emitAll ?_
      simp only [List.forall_mem_append]
      refine ⟨⟨⟨by simp, plain_loadCount m⟩, ?_⟩, ?_⟩
      · simpa using plain_op2 (by decide) false tmp (.reg rcx)
      · exact plain_op3 (vector (by rw [whole]; decide)) _ _ _ _ _ _
    · exact expandShift_quiet _ _ _ _ _ vector
  | reg r => exact .fail _

theorem selectShiftEach_quiet (op : Op) (dst src : Reg) (counts : Operand)
    (regular : R → op = .svl ∨ op = .svr) : Quiet R (selectShiftEach cfg op e dst src counts) := by
  refine .check fun _ _ => .check fun _ _ => .check fun _ _ => .check fun p planned => ?_
  dsimp only
  split
  · next whole =>
    have vector := vector_of_planOf planned (by rw [whole]; decide)
    have group : (if e.bits = 64 then (Form.shiftGroup 64, (58 : UInt8))
        else (Form.shiftGroup 32, 27)).1.Vector := by
      split <;> decide
    refine .emitAll (List.forall_mem_append.2 ⟨plain_setAll _, ?_⟩)
    simp only [List.forall_mem_cons]
    exact ⟨fun _ => group, fun _ => by decide, fun _ => vector, List.forall_mem_nil _⟩
  · refine expand_quiet _ _ _ _ _ fun holds unit => ?_
    exact absurd unit (unit_of_shiftEach planned (regular holds))

theorem selectMerge_quiet (dst : Reg) (src : Operand) (mask : Reg) :
    Quiet R (selectMerge cfg dst src mask) := by
  refine .check fun _ _ => .check fun _ _ => .check fun _ _ => ?_
  dsimp only
  split
  · exact .emitAll (List.forall_mem_nil _)
  split
  · split
    · exact .emit fun _ => by decide
    · refine .emitAll ?_
      simp only [List.forall_mem_cons]
      exact ⟨fun _ => by decide, fun _ => by decide, fun _ => by decide, List.forall_mem_nil _⟩
  split
  · exact .emit (by decide : Form.pblendvb.Legacy)
  · refine .emitAll ?_
    simp only [List.forall_mem_append, List.forall_mem_singleton, plain_legacy]
    refine ⟨⟨⟨⟨plain_copy _ _ _, by decide⟩, plain_copy _ _ _⟩, ?_⟩, by decide⟩
    split
    · exact List.forall_mem_nil _
    · exact List.forall_mem_singleton.2 (by decide : Form.andps.Legacy)

theorem selectMoveBase_quiet (dst src : Operand) : Quiet R (selectMoveBase cfg dst src) := by
  cases dst with
  | reg r =>
    refine .check fun _ _ => ?_
    cases src with
    | reg s =>
      refine .check fun _ _ => ?_
      split
      · exact .emitAll (List.forall_mem_nil _)
      · exact .emit (rfl : leads 0x89 = false)
    | imm i =>
      dsimp only
      split
      · exact .emit (rfl : leads 0xC7 = false)
      · exact .emit trivial
    | mem m => exact .emit (rfl : leads 0x8B = false)
  | mem m =>
    cases src with
    | reg s => exact .check fun _ _ => .emit (rfl : leads 0x89 = false)
    | _ => exact .fail _
  | imm i => exact .fail _

theorem selectAlu_quiet {a : Alu} (into : leads a.into = false) (outOf : leads a.outOf = false)
    (d : RegNum) (src : Operand) : Quiet R (selectAlu cfg a d src) := by
  cases src with
  | reg s => exact .check fun _ _ => .emit into
  | imm i =>
    dsimp only [selectAlu]
    split
    · exact .emit (plain_gpByte ..)
    · exact .emit (rfl : leads 0x81 = false)
  | mem m => exact .emit outOf

theorem selectArithBase_quiet (op : Op) (dst : Reg) (src : Operand) :
    Quiet R (selectArithBase cfg op dst src) := by
  refine .check fun _ _ => ?_
  split
  · next a found =>
    have clear : leads a.into = false ∧ leads a.outOf = false := by
      cases op <;> cases found <;> decide
    exact selectAlu_quiet clear.1 clear.2 _ _
  · exact .fail _

theorem selectShiftBase_quiet (op : Op) (signed : Bool) (dst : Reg) (count : Imm) :
    Quiet R (selectShiftBase cfg op signed dst count) := by
  refine .check fun _ _ => ?_
  dsimp only
  split <;> first | exact .emit (rfl : leads 0xC1 = false) | exact .fail _

theorem selectMaskJump_safe (src : Reg) (cond : MaskCond) (target : LabelRef) :
    (selectMaskJump cfg src cond target).Safe True (Insn.Of R (some target)) := by
  have plain {is : List Insn} (all : ∀ i ∈ is, i.Plain R) : ∀ i ∈ is, i.Of R (some target) :=
    fun i member => .inl (all i member)
  have jumps {test : Insn} (tested : test.Plain R) (long : Bool) (x : RegNum) :
      (Emission.emitAll [.push rax, op2 cfg .pmovmskb long rax (.reg x), test, .pop rax,
        .jcc 0x4 target]).Safe True (Insn.Of R (some target)) := by
    refine .emitAll ?_
    simp only [List.forall_mem_cons]
    exact ⟨.inl (plain_push _), .inl (plain_op2 (by decide) ..), .inl tested, .inl (plain_pop _),
      .inr ⟨target, rfl, rfl⟩, List.forall_mem_nil _⟩
  have join : (if cond = .full then Form.pand else Form.por).Vector := by
    split <;> decide
  refine .check fun _ _ => ?_
  dsimp only
  split
  · refine (Safe.emitAll (plain ?_)).bind fun _ _ => ?_
    · simp only [List.forall_mem_cons]
      exact ⟨fun _ => by decide, fun _ => join, List.forall_mem_nil _⟩
    · cases cond with
      | none => exact jumps ((plain_gpRegReg ..).2 rfl) _ _
      | full => exact jumps (plain_cmpImm _) _ _
  · cases cond with
    | none => exact jumps ((plain_gpRegReg ..).2 rfl) _ _
    | full => exact jumps (plain_cmpImm _) _ _

theorem selectCompareJump_safe (c : Cond) (x : Reg) (y : Operand) (target : LabelRef) :
    (selectCompareJump cfg c x y target).Safe True (Insn.Of R (some target)) := by
  refine .check fun d _ => ?_
  split
  · have compared : Quiet R (selectAlu cfg .cmp d y) := selectAlu_quiet rfl rfl d y
    exact (compared.mono fun _ => .inl).bind fun _ _ => .emit (.inr ⟨target, rfl, rfl⟩)
  · exact .fail _

/-- What is selected for a primitive is plain or jumps to its label, and does not trap. -/
theorem select_safe (cfg : Config) (p : Primitive) :
    (select cfg p).Safe True (Insn.Of p.Regular p.target?) := by
  have quiet {x : Selection Unit} (plain : Quiet p.Regular x) :
      x.Safe True (Insn.Of p.Regular p.target?) := plain.mono fun _ => .inl
  cases p with
  | move dst src => exact quiet (selectMove_quiet ..)
  | logic op dst s1 s2 => exact quiet (selectLogic_quiet ..)
  | not dst src => exact quiet (selectNot_quiet ..)
  | arith op e dst s1 s2 => exact quiet (selectBinary_quiet ..)
  | shift op e dst src count => exact quiet (selectShift_quiet ..)
  | shiftEach op e dst src counts => exact quiet (selectShiftEach_quiet _ _ _ _ id)
  | compare c e dst s1 s2 =>
    refine quiet ?_
    dsimp only [select, selectCompare]
    split
    · exact selectBinary_quiet ..
    · exact .fail _
  | merge dst src mask => exact quiet (selectMerge_quiet ..)
  | maskJump src cond target => exact selectMaskJump_safe ..
  | moveBase dst src => exact quiet (selectMoveBase_quiet ..)
  | arithBase op dst src => exact quiet (selectArithBase_quiet ..)
  | shiftBase op signed dst count => exact quiet (selectShiftBase_quiet ..)
  | compareJump c x y target => exact selectCompareJump_safe ..
  | jump target => exact .emit (.inr ⟨target, rfl, rfl⟩)
  | bind l => exact .emitAll (List.forall_mem_nil _)

end

theorem steady (cfg : Config) : (backend cfg).Steady := by
  intro p _ s
  show (issue cfg p s).1 ≠ _
  unfold issue
  split
  · split
    · exact nofun
    · exact nofun
  · exact (select_safe cfg _).outcome trivial

theorem eq_of_backend? {cfg : Config} {b : Backend Buffer} (found : backend? cfg = .ok b) :
    b = backend cfg := by
  unfold backend? at found
  split at found
  · cases found
  split at found
  · cases found
  · exact (Except.ok.inj found).symm

end X86

end LaneAsm
