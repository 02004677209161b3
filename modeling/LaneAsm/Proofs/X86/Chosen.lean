import LaneAsm.Proofs.X86.Selected

/-!
What the x86 encoder selects, kind by kind. `Chosen` says of every instruction of a primitive which
form it has, what it takes for the form to be there, and which immediate goes with it; `select_chosen`
is the one place where selections are taken apart.
-/
namespace LaneAsm

namespace Primitive

/-- Requests to shift name a shift. -/
def Shifts : Primitive → Prop
  | .shift op _ _ _ _ => op = .shl ∨ op = .shr
  | .shiftEach op _ _ _ _ => op = .svl ∨ op = .svr
  | _ => True

/-- Each request names an operation of its own family: only comparisons compare. -/
def Formed : Primitive → Prop
  | .arith op _ _ _ _ => op.isCompare = false
  | p => p.Shifts

theorem Shifts.regular {p : Primitive} (shifts : p.Shifts) : p.Regular := by
  cases p <;> first | exact shifts | trivial

theorem Formed.shifts {p : Primitive} (formed : p.Formed) : p.Shifts := by
  cases p <;> first | exact formed | trivial

end Primitive

namespace X86

open Emission

/-- Registers have sixteen bytes, or 32 at a level that has them. -/
def Fitting (cfg : Config) : Prop :=
  cfg.physBytes = 16 ∨ cfg.physBytes = 32 ∧ Level.avx1 ≤ cfg.level

instance (cfg : Config) : Decidable (Fitting cfg) := inferInstanceAs (Decidable (_ ∨ _))

section
variable {cfg : Config}

theorem wide_eq_true : wide cfg = true ↔ cfg.physBytes = 32 := by simp [wide]

theorem vexed_eq_true : vexed cfg = true ↔ Level.avx1 ≤ cfg.level := by simp [vexed]

theorem floatOnly_eq_true : floatOnly cfg = true ↔ wide cfg = true ∧ cfg.level < Level.avx2 := by
  simp [floatOnly]

/-- Vectors of 32 bytes come with VEX. -/
theorem Fitting.vexed (fitting : Fitting cfg) (long : cfg.physBytes ≠ 16) : vexed cfg = true := by
  rcases fitting with short | ⟨-, level⟩
  · exact absurd short long
  · exact vexed_eq_true.2 level

theorem Fitting.vexed_of_floatOnly (fitting : Fitting cfg) (float : floatOnly cfg = true) :
    X86.vexed cfg = true := by
  refine fitting.vexed ?_
  rw [wide_eq_true.1 (floatOnly_eq_true.1 float).1]
  decide

end

/-! ## Forms of operations -/

/-- The forms of operations do not depend on more than the elements that have a meaning: a float of
any width but 64 bits has the forms of 32. -/
theorem exists_elem_of_nativeForm? {op : Op} {e : Elem} {t : Form × Level}
    (found : nativeForm? op e = some t) :
    op ∈ Op.named ∧ ∃ d ∈ Elem.all, nativeForm? op d = some t ∧ d.isFloat = e.isFloat := by
  have known : op ∈ Op.named := by
    cases op with
    | other code => simp [nativeForm?, floatForm?] at found
    | _ => decide
  refine ⟨known, ?_⟩
  obtain ⟨bits, kind⟩ := e
  by_cases widths : bits = 8 ∨ bits = 16 ∨ bits = 32 ∨ bits = 64
  · cases kind with
    | float =>
      by_cases double : bits = 64
      · subst double
        exact ⟨.f64, by decide, found, rfl⟩
      · refine ⟨.f32, by decide, ?_, rfl⟩
        rw [← found]
        simp [nativeForm?, floatForm?, Elem.isFloat, Elem.f32, double]
    | unsigned | signed =>
      rcases widths with rfl | rfl | rfl | rfl <;> exact ⟨_, by decide, found, rfl⟩
  · simp only [not_or] at widths
    cases kind with
    | float =>
      refine ⟨.f32, by decide, ?_, rfl⟩
      rw [← found]
      simp [nativeForm?, floatForm?, Elem.isFloat, Elem.f32, widths]
    | unsigned | signed =>
      exfalso
      cases op <;> simp [nativeForm?, formByBits, minMaxForm?, shiftEachForm?, Elem.isFloat,
        Elem.isSigned, widths] at found

/-- What holds of the forms on the elements with a meaning holds of all forms. -/
theorem of_nativeForm? {P : Op → Bool → Form → Level → Prop}
    (all : ∀ op ∈ Op.named, ∀ d ∈ Elem.all, ∀ t ∈ nativeForm? op d, P op d.isFloat t.1 t.2)
    {op : Op} {e : Elem} {f : Form} {level : Level} (found : nativeForm? op e = some (f, level)) :
    P op e.isFloat f level := by
  obtain ⟨known, d, member, same, float⟩ := exists_elem_of_nativeForm? found
  rw [← float]
  exact all op known d member (f, level) same

theorem nativeForm_eq {op : Op} {e : Elem} {f : Form} {level : Level}
    (found : nativeForm? op e = some (f, level)) : nativeForm op e = f := by
  rw [nativeForm, found]
  rfl

/-- How an operation is planned, and what the plan rests on. -/
inductive Planned (cfg : Config) (op : Op) (e : Elem) : Plan → Prop
  | whole {p : Plan} {level : Level} (unit : p.unit = .none)
      (form : nativeForm? op e = some (nativeForm op e, level)) (reached : level ≤ cfg.level)
      (long : wide cfg = true → e.isFloat = true ∨ Level.avx2 ≤ cfg.level) : Planned cfg op e p
  | halves {p : Plan} {level : Level} (unit : p.unit = .vector)
      (form : nativeForm? op e = some (nativeForm op e, level)) (reached : level ≤ cfg.level)
      (early : level ≤ Level.avx1) (whole : e.isFloat = false) (long : cfg.physBytes ≠ 16) :
      Planned cfg op e p
  | lanes {p : Plan} (unit : p.unit = .scalar) : Planned cfg op e p

theorem planned_of_planOf {cfg : Config} {op : Op} {e : Elem} {p : Plan}
    (found : planOf cfg op e = .ok p) : Planned cfg op e p := by
  have plan : planOf? cfg op e = some p := by
    unfold planOf at found
    split at found
    · next found' => rw [found', Except.ok.inj found]
    · cases found
  have lanes (given : (if scalarOp op e then some (⟨.scalar, cfg.physBytes, e.bytes⟩ : Plan) else none)
      = some p) : Planned cfg op e p := by
    split at given
    · obtain rfl := Option.some.inj given
      exact .lanes rfl
    · cases given
  unfold planOf? planFor? at plan
  dsimp only at plan
  split at plan
  · next f level form =>
    have form' : nativeForm? op e = some (nativeForm op e, level) := by rw [nativeForm_eq form, form]
    split at plan
    · next reached =>
      have reached : level ≤ cfg.level := Int.ofNat_le.1 reached
      split at plan
      · next direct =>
        obtain rfl := Option.some.inj plan
        refine .whole rfl form' reached fun long => ?_
        rcases direct with short | rest
        · rw [wide_eq_true.1 long] at short
          cases short
        · exact rest.imp_right Int.ofNat_le.1
      · next indirect =>
        simp only [not_or, Bool.not_eq_true] at indirect
        have long : cfg.physBytes ≠ 16 := fun same => indirect.1 (congrArg Nat.cast same)
        split at plan
        · next early =>
          obtain rfl := Option.some.inj plan
          exact .halves rfl form' reached early indirect.2.1 long
        · exact lanes plan
    · exact lanes plan
  · exact lanes plan

/-! ## Kinds of instructions -/

namespace Form

/-- Moves and operations on bits, which every level has at every width. -/
def bitwise : List Form :=
  [movaps, movupsLoad, movupsStore, andps, andnps, orps, xorps]

/-- Integer forms that sequences use by themselves. -/
def auxiliary : List Form := [pcmpeqd, pmovmskb, movd, pand, por]

/-- Forms on general registers without an opcode extension or an immediate, by their narrow forms. -/
def general : List Form :=
  ([0x01, 0x03, 0x09, 0x0B, 0x21, 0x23, 0x29, 0x2B, 0x31, 0x33, 0x39, 0x3B, 0x85, 0x88, 0x89,
      0x8B] : List UInt8).map (one · false)
    ++ ([0x42, 0x47, 0x4C, 0x4F, 0x94, 0x9F, 0xAF, 0xB6, 0xB7, 0xBE, 0xBF] : List UInt8).map m0F
    ++ [⟨.p66, .one, 0x89, false⟩]

/-- Forms on general registers with an opcode extension, and the bytes of their immediates. -/
def grouped : List (Form × RegNum × Nat) :=
  ([0, 1, 4, 5, 6, 7] : List RegNum).map (one 0x81 false, ·, 4)
    ++ ([0, 1, 4, 5, 6, 7] : List RegNum).map (one 0x83 false, ·, 1)
    ++ ([4, 5, 7] : List RegNum).map (one 0xC1 false, ·, 1)
    ++ ([4, 5, 7] : List RegNum).map (one 0xD3 false, ·, 0)
    ++ [(one 0xC7 false, 0, 4), (one 0xF7 false, 3, 0)]

end Form

/-- A vector form that a target has at a length, with the register field and the immediate it is
used with. -/
inductive Suited (cfg : Config) (p : Primitive) : Form → Bool → RegNum → List UInt8 → Prop
  | bitwise {f : Form} (listed : f ∈ Form.bitwise) (long : Bool) (r : RegNum) : Suited cfg p f long r []
  | auxiliary {f : Form} (listed : f ∈ Form.auxiliary) {long : Bool} (r : RegNum)
      (wide : p.Shifts → long = true → Level.avx2 ≤ cfg.level) : Suited cfg p f long r []
  | native {op : Op} {e : Elem} {f : Form} {level : Level} {long : Bool} {imm : List UInt8}
      (form : nativeForm? op e = some (f, level)) (reached : level ≤ cfg.level) (r : RegNum)
      (wide : long = true → e.isFloat = true ∨ Level.avx2 ≤ cfg.level)
      (given : p.Formed → imm.length = if e.isFloat && op.isCompare then 1 else 0) :
      Suited cfg p f long r imm
  | group {bits : Nat} {long : Bool} {r : RegNum} (n : UInt8)
      (digit : p.Shifts → r = 2 ∨ r = 6 ∨ r = 4 ∧ (bits = 16 ∨ bits = 32))
      (wide : p.Shifts → long = true → Level.avx2 ≤ cfg.level) :
      Suited cfg p (.shiftGroup bits) long r [n]

/-- What can be selected for a primitive. -/
inductive Chosen (cfg : Config) (p : Primitive) : Insn → Prop
  | vex {f : Form} {long : Bool} {r : RegNum} {imm : List UInt8} (v : RegNum) (x : Rm)
      (suited : Suited cfg p f long r imm) (has : Fitting cfg → p.Regular → vexed cfg = true) :
      Chosen cfg p (.vex f long r v x imm)
  | legacy {f : Form} {r : RegNum} {imm : List UInt8} (x : Rm) (suited : Suited cfg p f false r imm)
      (lacks : vexed cfg = false) : Chosen cfg p (.legacy f r x imm)
  /-- Sets every bit without integer comparisons. -/
  | ones (r v : RegNum) (x : Rm) (float : floatOnly cfg = true) :
      Chosen cfg p (.vex .cmpps true r v x [0x0F])
  /-- Takes the upper half without integer forms. -/
  | upper (r v : RegNum) (x : Rm) (float : floatOnly cfg = true) :
      Chosen cfg p (.vex .vextractf128 true r v x [1])
  | blend {long : Bool} (r v : RegNum) (x : Rm) (n : UInt8) (full : long = wide cfg)
      (has : vexed cfg = true) (blends : blends cfg = true) :
      Chosen cfg p (.vex .vpblendvb long r v x [n])
  | blendFirst (r : RegNum) (x : Rm) (lacks : vexed cfg = false) (blends : blends cfg = true) :
      Chosen cfg p (.legacy .pblendvb r x [])
  /-- The blank form stands where a shift for each lane names no shift. -/
  | blank (r v : RegNum) (x : Rm) (irregular : ¬ p.Regular) : Chosen cfg p (.vex .blank false r v x [])
  | general {f : Form} (listed : f.sized false ∈ Form.general) (r : RegNum) (x : Rm) :
      Chosen cfg p (.legacy f r x [])
  | grouped {f : Form} {r : RegNum} {imm : List UInt8}
      (listed : (f.sized false, r, imm.length) ∈ Form.grouped) (x : Rm) :
      Chosen cfg p (.legacy f r x imm)
  | push (r : RegNum) : Chosen cfg p (.push r)
  | pop (r : RegNum) : Chosen cfg p (.pop r)
  | movImm (r : RegNum) (v : UInt32) : Chosen cfg p (.movImm r v)
  | cmpImm (v : UInt32) : Chosen cfg p (.cmpImm v)
  | jcc {cc : UInt8} (code : cc < 16) (l : LabelRef) : Chosen cfg p (.jcc cc l)
  | jmp (l : LabelRef) : Chosen cfg p (.jmp l)

/-! ## Sequences -/

section
variable {cfg : Config} {p : Primitive} {e : Elem}

/-- What a target has at full length it has at half the length. -/
theorem Suited.short {f : Form} {long : Bool} {r : RegNum} {imm : List UInt8}
    (suited : Suited cfg p f long r imm) : Suited cfg p f false r imm := by
  cases suited with
  | bitwise listed => exact .bitwise listed _ _
  | auxiliary listed => exact .auxiliary listed _ nofun
  | native form reached r wide given => exact .native form reached r nofun given
  | group n digit wide => exact .group n digit nofun

theorem chosen_op2 {f : Form} {long : Bool} {dst : RegNum} (suited : Suited cfg p f long dst [])
    (x : Rm) : Chosen cfg p (op2 cfg f long dst x) := by
  unfold op2
  split
  · next has => exact .vex _ _ suited fun _ _ => has
  · next lacks => exact .legacy _ suited.short (Bool.eq_false_iff.2 lacks)

theorem chosen_load (long : Bool) (dst : RegNum) (m : Mem) : Chosen cfg p (load cfg long dst m) :=
  chosen_op2 (.bitwise (by decide) _ _) _

theorem chosen_store (long : Bool) (m : Mem) (src : RegNum) : Chosen cfg p (store cfg long m src) :=
  chosen_op2 (.bitwise (by decide) _ _) _

theorem chosen_copy (long : Bool) (dst src : RegNum) :
    ∀ i ∈ copy cfg long dst src, Chosen cfg p i := by
  unfold copy
  split
  · exact List.forall_mem_nil _
  · exact List.forall_mem_singleton.2 (chosen_op2 (.bitwise (by decide) _ _) _)

theorem chosen_op3 {f : Form} {long : Bool} {dst : RegNum} {imm : List UInt8}
    (suited : Suited cfg p f long dst imm) (commutative : Bool) (s1 : RegNum) (s2 : Rm) :
    ∀ i ∈ op3 cfg f long commutative dst s1 s2 imm, Chosen cfg p i := by
  unfold op3
  split
  · next has => exact List.forall_mem_singleton.2 (.vex _ _ suited fun _ _ => has)
  · next lacks =>
    have last (x : Rm) : ∀ i ∈ [Insn.legacy f dst x imm], Chosen cfg p i :=
      List.forall_mem_singleton.2 (.legacy _ suited.short (Bool.eq_false_iff.2 lacks))
    split
    · exact last _
    split
    · split
      · exact last _
      · simp only [List.forall_mem_append]
        exact ⟨⟨chosen_copy _ _ _, chosen_copy _ _ _⟩, last _⟩
    · exact List.forall_mem_append.2 ⟨chosen_copy _ _ _, last _⟩

/-- Where vectors have their integer forms, a full length is one that the level has. -/
theorem level_of_wide (integers : floatOnly cfg = false) (long : wide cfg = true) :
    Level.avx2 ≤ cfg.level := by
  refine Nat.le_of_not_lt fun below => ?_
  rw [floatOnly_eq_true.2 ⟨long, below⟩] at integers
  cases integers

theorem chosen_setAll (r : RegNum) : ∀ i ∈ setAll cfg r, Chosen cfg p i := by
  unfold setAll
  split
  · next float => exact List.forall_mem_singleton.2 (.ones _ _ _ float)
  · next integers =>
    refine chosen_op3 (.auxiliary (by decide) _ fun _ long => ?_) _ _ _
    exact level_of_wide (Bool.eq_false_iff.2 integers) long

theorem chosen_gpRegReg {opcode : UInt8} (listed : Form.one opcode false ∈ Form.general) (w : Bool)
    (dst src : RegNum) : Chosen cfg p (gpRegReg opcode w dst src) :=
  .general (f := .one opcode w) listed _ _

theorem chosen_gpByte {digit : RegNum}
    (listed : (Form.one 0x83 false, digit, 1) ∈ Form.grouped) (w : Bool) (dst : RegNum) (v : UInt8) :
    Chosen cfg p (gpByte w digit dst v) := by
  refine .grouped ?_ _
  exact listed

theorem chosen_loadLane (r : RegNum) (m : Mem) : Chosen cfg p (loadLane e r m) := by
  refine .general ?_ _ _
  repeat' split
  all_goals first | decide | exact (by decide : Form.one 0x8B false ∈ Form.general)

theorem chosen_storeLane (m : Mem) (r : RegNum) : Chosen cfg p (storeLane e m r) := by
  refine .general ?_ _ _
  repeat' split
  all_goals first | decide | exact (by decide : Form.one 0x89 false ∈ Form.general)

theorem chosen_loadCount (m : Mem) : ∀ i ∈ loadCount e m, Chosen cfg p i := by
  simp only [loadCount, List.forall_mem_cons]
  exact ⟨chosen_loadLane _ _, chosen_gpByte (by decide) _ _ _, List.forall_mem_nil _⟩

theorem chosen_shiftLane (op : Op) : Chosen cfg p (shiftLane op e) := by
  have digit : (if op = .shl ∨ op = .svl then (4 : RegNum) else if e.isSigned then 7 else 5)
      ∈ ([4, 5, 7] : List RegNum) := by
    repeat' split
    all_goals decide
  refine .grouped ?_ _
  generalize (if op = .shl ∨ op = .svl then (4 : RegNum) else if e.isSigned then 7 else 5) = r at *
  show (Form.one 0xD3 false, r, 0) ∈ Form.grouped
  revert r
  decide

theorem chosen_stage (s1 : RegNum) (s2 : Rm) : ∀ i ∈ stage cfg s1 s2, Chosen cfg p i := by
  cases s2 with
  | reg r =>
    simp only [stage, List.forall_mem_cons]
    exact ⟨chosen_store _ _ _, chosen_store _ _ _, List.forall_mem_nil _⟩
  | mem m =>
    simp only [stage, List.forall_mem_cons]
    exact ⟨chosen_store _ _ _, chosen_load _ _ _, chosen_store _ _ _, List.forall_mem_nil _⟩

theorem chosen_setLane {cc : UInt8} (listed : Form.m0F (0x90 + cc) ∈ Form.general) (w : Bool) :
    ∀ i ∈ setLane w cc, Chosen cfg p i := by
  have negated : (Form.one 0xF7 false, (3 : RegNum), 0) ∈ Form.grouped := by decide
  simp only [setLane, List.forall_mem_cons]
  refine ⟨.general (f := .m0F (0x90 + cc)) listed _ _, .general (f := .m0F 0xB6) (by decide) _ _, ?_,
    List.forall_mem_nil _⟩
  refine .grouped ?_ _
  exact negated

theorem chosen_scalar {op : Op} {is : List Insn} (found : scalar op e = .ok is) :
    ∀ i ∈ is, Chosen cfg p i := by
  have combined {opcode : UInt8} (listed : Form.one opcode false ∈ Form.general) (w : Bool) :
      Chosen cfg p (gpRegReg opcode w rax rcx) := chosen_gpRegReg listed _ _ _
  have extended {opcode : UInt8} (listed : Form.m0F opcode ∈ Form.general) (w : Bool) :
      Chosen cfg p (.legacy ((Form.m0F opcode).sized w) rax (.reg rcx) []) :=
    .general (f := (Form.m0F opcode).sized w) listed _ _
  have compared (w : Bool) {is : List Insn} (rest : ∀ i ∈ is, Chosen cfg p i) :
      ∀ i ∈ gpRegReg 0x39 w rax rcx :: is, Chosen cfg p i :=
    List.forall_mem_cons.2 ⟨combined (by decide) w, rest⟩
  have counted : ∀ i ∈ [gpByte false 4 rcx (countMask e), shiftLane op e], Chosen cfg p i :=
    List.forall_mem_cons.2 ⟨chosen_gpByte (by decide) _ _ _,
      List.forall_mem_singleton.2 (chosen_shiftLane _)⟩
  unfold scalar at found
  dsimp only at found
  split at found <;> cases found
  · exact List.forall_mem_singleton.2 (combined (by decide) _)
  · exact List.forall_mem_singleton.2 (combined (by decide) _)
  · exact List.forall_mem_singleton.2 (extended (by decide) _)
  · refine compared _ (List.forall_mem_singleton.2 (extended ?_ _))
    split <;> decide
  · refine compared _ (List.forall_mem_singleton.2 (extended ?_ _))
    split <;> decide
  · exact compared _ (chosen_setLane (by decide) _)
  · exact compared _ (chosen_setLane (by decide) _)
  · exact counted
  · exact counted

/-! ## Selections -/

variable (cfg p) in
/-- A selection of instructions that are known. -/
abbrev Picks (x : Selection Unit) : Prop := x.Safe True (Chosen cfg p)

theorem eachGroup_picks {k : Plan} {step : Int → Selection Unit}
    (picks : ∀ offset, Picks cfg p (step offset)) : Picks cfg p (eachGroup k step) :=
  .check fun _ _ => .each fun _ _ => picks _

theorem aroundScalar_picks {work : Selection Unit} (picks : Picks cfg p work) :
    Picks cfg p (aroundScalar work) := by
  refine (Safe.emitAll ?_).bind fun _ _ => picks.andFinally ?_
  · exact List.forall_mem_cons.2 ⟨.push _, List.forall_mem_singleton.2 (.push _)⟩
  · exact List.forall_mem_cons.2 ⟨.pop _, List.forall_mem_singleton.2 (.pop _)⟩

/-- One group of sixteen bytes: it is loaded, worked on and stored. -/
theorem group_picks {work : Insn} (chosen : Chosen cfg p work) (a : Mem) :
    Picks cfg p (.emitAll [load cfg false tmp a, work, store cfg false a tmp]) := by
  refine .emitAll ?_
  simp only [List.forall_mem_cons]
  exact ⟨chosen_load _ _ _, chosen, chosen_store _ _ _, List.forall_mem_nil _⟩

theorem expand_picks (k : Plan) (op : Op) {f : Form} (dst s1 : RegNum) (s2 : Rm)
    (halves : k.unit = .vector → ∀ x, Chosen cfg p (.vex f false tmp tmp x [])) :
    Picks cfg p (expand cfg k op e f dst s1 s2) := by
  have loaded : Picks cfg p (.emit (load cfg (wide cfg) dst cfg.slots.a)) := .emit (chosen_load ..)
  refine (Safe.emitAll (chosen_stage _ _)).bind fun _ _ => ?_
  dsimp only
  split
  · next unit =>
    exact (eachGroup_picks fun _ => group_picks (halves unit _) _).bind fun _ _ => loaded
  · refine (aroundScalar_picks (eachGroup_picks fun _ => ?_)).bind fun _ _ => loaded
    refine (Safe.emitAll ?_).bind fun _ _ => .check fun is found => ?_
    · exact List.forall_mem_cons.2 ⟨chosen_loadLane _ _,
        List.forall_mem_singleton.2 (chosen_loadLane _ _)⟩
    · exact (Safe.emitAll (chosen_scalar found)).bind fun _ _ => .emit (chosen_storeLane ..)
  · exact (Safe.fail _).bind fun _ _ => loaded

theorem expandShift_picks (k : Plan) (op : Op) (dst src : RegNum) (count : Count)
    (grouped : k.unit = .vector → ∀ n,
      Chosen cfg p (.vex (.shiftGroup e.bits) false (shiftDigit op e) tmp (.reg tmp) [n]))
    (halves : k.unit = .vector → ∀ x, Chosen cfg p (.vex (nativeForm op e) false tmp tmp x [])) :
    Picks cfg p (expandShift cfg k op e dst src count) := by
  have loaded : Picks cfg p (.emit (load cfg (wide cfg) dst cfg.slots.a)) := .emit (chosen_load ..)
  refine (Safe.emit (chosen_store ..)).bind fun _ _ => ?_
  dsimp only
  split
  · next unit =>
    cases count with
    | imm n =>
      refine (Safe.emitAll (List.forall_mem_nil _)).bind fun _ _ => ?_
      exact (eachGroup_picks fun _ => group_picks (grouped unit n) _).bind fun _ _ => loaded
    | mem m =>
      refine (Safe.emitAll ?_).bind fun _ _ => ?_
      · simp only [List.forall_mem_append, List.forall_mem_cons]
        exact ⟨⟨⟨.push _, List.forall_mem_nil _⟩, chosen_loadCount m⟩, chosen_storeLane _ _, .pop _,
          List.forall_mem_nil _⟩
      · exact (eachGroup_picks fun _ => group_picks (halves unit _) _).bind fun _ _ => loaded
  · refine (aroundScalar_picks ?_).bind fun _ _ => loaded
    refine (Safe.emitAll ?_).bind fun _ _ => eachGroup_picks fun _ => .emitAll ?_
    · cases count with
      | imm n => exact List.forall_mem_singleton.2 (.movImm _ _)
      | mem m => exact chosen_loadCount m
    · simp only [List.forall_mem_cons]
      exact ⟨chosen_loadLane _ _, chosen_shiftLane _, chosen_storeLane _ _, List.forall_mem_nil _⟩
  · exact (Safe.fail _).bind fun _ _ => loaded

/-- The form of a plan in halves, at half the length. -/
theorem Planned.chosen_half {op : Op} {k : Plan} (planned : Planned cfg op e k) (unit : k.unit = .vector)
    (x : Rm) : Chosen cfg p (.vex (nativeForm op e) false tmp tmp x []) := by
  cases planned with
  | whole other => rw [unit] at other; cases other
  | lanes other => rw [unit] at other; cases other
  | halves _ form reached _ whole long =>
    refine .vex _ _ (.native form reached _ nofun fun _ => ?_) fun fitting _ => fitting.vexed long
    rw [whole]
    rfl

/-- The form of an operation that is planned whole, with an immediate that goes with it. -/
theorem Planned.suited {op : Op} {k : Plan} (planned : Planned cfg op e k) (unit : k.unit = .none)
    {imm : List UInt8} (given : p.Formed → imm.length = if e.isFloat && op.isCompare then 1 else 0)
    (r : RegNum) : Suited cfg p (nativeForm op e) (wide cfg) r imm := by
  cases planned with
  | whole _ form reached long => exact .native form reached r long given
  | halves other => rw [unit] at other; cases other
  | lanes other => rw [unit] at other; cases other

theorem selectBinary_picks (op : Op) (dst s1 : Reg) (s2 : Operand) {imm : List UInt8}
    (given : p.Formed → imm.length = if e.isFloat && op.isCompare then 1 else 0) :
    Picks cfg p (selectBinary cfg op e dst s1 s2 imm) := by
  refine .check fun _ _ => .check fun _ _ => .check fun _ _ => .check fun k found => ?_
  have planned := planned_of_planOf found
  split
  · next unit => exact .emitAll (chosen_op3 (planned.suited unit given _) _ _ _)
  · exact expand_picks _ _ _ _ _ fun unit x => planned.chosen_half unit x

theorem selectMove_picks (dst src : Operand) : Picks cfg p (selectMove cfg dst src) := by
  cases dst with
  | reg d =>
    refine .check fun _ _ => .check fun y _ => ?_
    cases y with
    | reg s => exact .emitAll (chosen_copy _ _ _)
    | mem m => exact .emit (chosen_load ..)
  | mem m =>
    cases src with
    | reg s => exact .check fun _ _ => .check fun _ _ => .emit (chosen_store ..)
    | _ => exact .fail _
  | imm i => exact .fail _

theorem selectLogic_picks (op : Op) (dst s1 : Reg) (s2 : Operand) :
    Picks cfg p (selectLogic cfg op dst s1 s2) := by
  refine .check fun _ _ => .check fun _ _ => .check fun _ _ => ?_
  dsimp only
  split
  all_goals first
    | exact .emitAll (chosen_op3 (.bitwise (by decide) _ _) _ _ _)
    | exact .fail _

theorem selectNot_picks (dst src : Reg) : Picks cfg p (selectNot cfg dst src) := by
  refine .check fun _ _ => .check fun _ _ => .emitAll ?_
  exact List.forall_mem_append.2
    ⟨chosen_setAll _, chosen_op3 (.bitwise (by decide) _ _) _ _ _⟩

/-- A shift has a form only on integers, and a signed one to the right only below 64 bits. -/
theorem shift_facts {op : Op} {f : Form} {level : Level} (shift : op = .shl ∨ op = .shr)
    (form : nativeForm? op e = some (f, level)) : e.isFloat = false ∧
      (shiftDigit op e = 2 ∨ shiftDigit op e = 6 ∨ shiftDigit op e = 4 ∧ (e.bits = 16 ∨ e.bits = 32)) := by
  have whole : e.isFloat = false := by
    refine Bool.eq_false_iff.2 fun float => ?_
    rcases shift with rfl | rfl <;> simp [nativeForm?, float, floatForm?] at form
  refine ⟨whole, ?_⟩
  rcases shift with rfl | rfl
  · exact .inr (.inl rfl)
  · by_cases signed : e.isSigned = true
    · refine .inr (.inr ⟨by simp [shiftDigit, signed], ?_⟩)
      simp only [nativeForm?, whole, signed, formByBits, Bool.false_eq_true, if_false, if_true] at form
      by_cases narrow : e.bits = 16
      · exact .inl narrow
      · by_cases middle : e.bits = 32
        · exact .inr middle
        · simp [narrow, middle] at form
    · exact .inl (by simp [shiftDigit, signed])

/-- A shift is no comparison, so that its form takes no immediate. -/
theorem given_of_shift {op : Op} (shift : op = .shl ∨ op = .shr ∨ op = .svl ∨ op = .svr) :
    ([] : List UInt8).length = if e.isFloat && op.isCompare then 1 else 0 := by
  rcases shift with rfl | rfl | rfl | rfl <;> simp [Op.isCompare]

theorem selectShift_picks (op : Op) (dst src : Reg) (count : Operand)
    (shifts : p.Shifts → op = .shl ∨ op = .shr) : Picks cfg p (selectShift cfg op e dst src count) := by
  refine .check fun _ _ => .check fun _ _ => .check fun k found => ?_
  have planned := planned_of_planOf found
  have given (formed : p.Formed) :
      ([] : List UInt8).length = if e.isFloat && op.isCompare then 1 else 0 :=
    given_of_shift ((shifts formed.shifts).imp_right .inl)
  have grouped (unit : k.unit = .none) (n : UInt8) :
      Suited cfg p (.shiftGroup e.bits) (wide cfg) (shiftDigit op e) [n] := by
    cases planned with
    | whole _ form _ long =>
      refine .group n (fun named => (shift_facts (shifts named) form).2) fun named full => ?_
      rcases long full with float | level
      · rw [(shift_facts (shifts named) form).1] at float
        cases float
      · exact level
    | halves other => rw [unit] at other; cases other
    | lanes other => rw [unit] at other; cases other
  have halved (unit : k.unit = .vector) (n : UInt8) :
      Chosen cfg p (.vex (.shiftGroup e.bits) false (shiftDigit op e) tmp (.reg tmp) [n]) := by
    cases planned with
    | halves _ form _ _ _ long =>
      refine .vex _ _ (.group n (fun named => (shift_facts (shifts named) form).2) nofun) ?_
      exact fun fitting _ => fitting.vexed long
    | whole other => rw [unit] at other; cases other
    | lanes other => rw [unit] at other; cases other
  have expanded (count : Count) (d s : RegNum) : Picks cfg p (expandShift cfg k op e d s count) :=
    expandShift_picks _ _ _ _ _ halved fun unit x => planned.chosen_half unit x
  cases count with
  | imm i =>
    dsimp only
    split
    · next unit =>
      refine .emitAll ?_
      simp only [shiftImm]
      split
      · next has => exact List.forall_mem_singleton.2 (.vex _ _ (grouped unit _) fun _ _ => has)
      · next lacks =>
        refine List.forall_mem_append.2 ⟨chosen_copy _ _ _, List.forall_mem_singleton.2 ?_⟩
        exact .legacy _ (grouped unit _).short (Bool.eq_false_iff.2 lacks)
    · exact expanded _ _ _
  | mem m =>
    refine .check fun _ _ => ?_
    split
    · next unit =>
      refine .emitAll ?_
      simp only [List.forall_mem_append, List.forall_mem_cons]
      refine ⟨⟨⟨⟨.push _, List.forall_mem_nil _⟩, chosen_loadCount m⟩, ?_, .pop _,
        List.forall_mem_nil _⟩, ?_⟩
      · have moved : Suited cfg p .movd false tmp [] := .auxiliary (by decide) _ nofun
        exact chosen_op2 moved _
      · exact chosen_op3 (planned.suited unit given _) _ _ _
    · exact expanded _ _ _
  | reg r => exact .fail _

/-- A shift for each lane is planned whole only at the level that has it at full length. -/
theorem Planned.level_of_shiftEach {op : Op} {k : Plan} (planned : Planned cfg op e k)
    (unit : k.unit = .none) (each : op = .svl ∨ op = .svr) : Level.avx2 ≤ cfg.level := by
  cases planned with
  | whole _ form reached =>
    have late := of_nativeForm? (P := fun op _ _ level => op = .svl ∨ op = .svr → Level.avx2 ≤ level)
      (by decide +kernel) form each
    exact Nat.le_trans late reached
  | halves other => rw [unit] at other; cases other
  | lanes other => rw [unit] at other; cases other

theorem selectShiftEach_picks (op : Op) (dst src : Reg) (counts : Operand)
    (each : p.Regular → op = .svl ∨ op = .svr) :
    Picks cfg p (selectShiftEach cfg op e dst src counts) := by
  refine .check fun _ _ => .check fun _ _ => .check fun _ _ => .check fun k found => ?_
  have planned := planned_of_planOf found
  dsimp only
  split
  · next unit =>
    have level (regular : p.Regular) : Level.avx2 ≤ cfg.level :=
      planned.level_of_shiftEach unit (each regular)
    have has (_ : Fitting cfg) (regular : p.Regular) : vexed cfg = true :=
      vexed_eq_true.2 (Nat.le_trans (by decide) (level regular))
    have given (formed : p.Formed) :
        ([] : List UInt8).length = if e.isFloat && op.isCompare then 1 else 0 :=
      given_of_shift ((each formed.shifts.regular).elim (.inr ∘ .inr ∘ .inl) (.inr ∘ .inr ∘ .inr))
    have masked (bits : Nat) (n : UInt8) :
        Chosen cfg p (.vex (.shiftGroup bits) (wide cfg) 2 tmp (.reg tmp) [n]) :=
      .vex _ _ (.group n (fun _ => .inl rfl) fun shifts _ => level shifts.regular) has
    refine .emitAll (List.forall_mem_append.2 ⟨chosen_setAll _, ?_⟩)
    simp only [List.forall_mem_cons]
    refine ⟨?_, ?_, ?_, List.forall_mem_nil _⟩
    · split
      · exact masked 64 58
      · exact masked 32 27
    · exact .vex _ _ (.auxiliary (by decide) _ fun shifts _ => level shifts.regular) has
    · exact .vex _ _ (planned.suited unit given _) has
  · refine expand_picks _ _ _ _ _ fun unit x => .blank _ _ _ fun regular => ?_
    exact unit_of_shiftEach found (each regular) unit

theorem selectMerge_picks (dst : Reg) (src : Operand) (mask : Reg) :
    Picks cfg p (selectMerge cfg dst src mask) := by
  refine .check fun _ _ => .check fun _ _ => .check fun _ _ => ?_
  have bitwise {f : Form} (listed : f ∈ Form.bitwise) (has : vexed cfg = true) (long : Bool)
      (r v : RegNum) (x : Rm) : Chosen cfg p (.vex f long r v x []) :=
    .vex _ _ (.bitwise listed _ _) fun _ _ => has
  dsimp only
  split
  · exact .emitAll (List.forall_mem_nil _)
  split
  · next has =>
    split
    · next blends => exact .emit (.blend _ _ _ _ rfl has blends)
    · refine .emitAll ?_
      simp only [List.forall_mem_cons]
      exact ⟨bitwise (by decide) has _ _ _ _, bitwise (by decide) has _ _ _ _,
        bitwise (by decide) has _ _ _ _, List.forall_mem_nil _⟩
  · next lacks =>
    have lacks : vexed cfg = false := Bool.eq_false_iff.2 lacks
    have plain {f : Form} (listed : f ∈ Form.bitwise) (r : RegNum) (x : Rm) :
        Chosen cfg p (.legacy f r x []) := .legacy _ (.bitwise listed _ _) lacks
    split
    · next first => exact .emit (.blendFirst _ _ lacks (Bool.and_eq_true_iff.1 first).1)
    · refine .emitAll ?_
      simp only [List.forall_mem_append, List.forall_mem_singleton]
      refine ⟨⟨⟨⟨chosen_copy _ _ _, plain (by decide) _ _⟩, chosen_copy _ _ _⟩, ?_⟩,
        plain (by decide) _ _⟩
      split
      · exact List.forall_mem_nil _
      · exact List.forall_mem_singleton.2 (plain (by decide) _ _)

theorem selectMaskJump_picks (src : Reg) (cond : MaskCond) (target : LabelRef) :
    Picks cfg p (selectMaskJump cfg src cond target) := by
  have jumps {test : Insn} (tested : Chosen cfg p test) {long : Bool}
      (has : long = true → Level.avx2 ≤ cfg.level) (x : RegNum) :
      Picks cfg p (.emitAll [.push rax, op2 cfg .pmovmskb long rax (.reg x), test, .pop rax,
        .jcc 0x4 target]) := by
    refine .emitAll ?_
    simp only [List.forall_mem_cons]
    exact ⟨.push _, chosen_op2 (.auxiliary (by decide) _ fun _ => has) _, tested, .pop _,
      .jcc (by decide) _, List.forall_mem_nil _⟩
  have tested : Chosen cfg p (gpRegReg 0x85 false rax rax) := chosen_gpRegReg (by decide) _ _ _
  refine .check fun _ _ => ?_
  dsimp only
  split
  · next float =>
    refine (Safe.emitAll ?_).bind fun _ _ => jumps ?_ (by simp [float]) _
    · have join : (if cond = .full then Form.pand else Form.por) ∈ Form.auxiliary := by
        split <;> decide
      simp only [List.forall_mem_cons]
      refine ⟨.upper _ _ _ float, ?_, List.forall_mem_nil _⟩
      refine .vex _ _ (.auxiliary join _ ?_) fun fitting _ => fitting.vexed_of_floatOnly float
      simp
    · cases cond with
      | none => exact tested
      | full => exact .cmpImm _
  · next integers =>
    have integers : floatOnly cfg = false := Bool.eq_false_iff.2 integers
    refine jumps ?_ (fun long => level_of_wide integers (Bool.and_eq_true_iff.1 long).1) _
    cases cond with
    | none => exact tested
    | full => exact .cmpImm _

theorem selectMoveBase_picks (dst src : Operand) : Picks cfg p (selectMoveBase cfg dst src) := by
  cases dst with
  | reg r =>
    refine .check fun _ _ => ?_
    cases src with
    | reg s =>
      refine .check fun _ _ => ?_
      split
      · exact .emitAll (List.forall_mem_nil _)
      · exact .emit (chosen_gpRegReg (by decide) _ _ _)
    | imm i =>
      dsimp only
      split
      · have listed : (Form.one 0xC7 false, (0 : RegNum), 4) ∈ Form.grouped := by decide
        refine .emit (.grouped ?_ _)
        exact listed
      · exact .emit (.movImm _ _)
    | mem m =>
      refine .emit (.general ?_ _ _)
      exact (by decide : Form.one 0x8B false ∈ Form.general)
  | mem m =>
    cases src with
    | reg s =>
      refine .check fun _ _ => .emit (.general ?_ _ _)
      exact (by decide : Form.one 0x89 false ∈ Form.general)
    | _ => exact .fail _
  | imm i => exact .fail _

/-- The opcodes and the extension of a general operation are among those that are known. -/
def Alu.Known (a : Alu) : Prop :=
  Form.one a.into false ∈ Form.general ∧ Form.one a.outOf false ∈ Form.general ∧
    (Form.one 0x81 false, a.digit, 4) ∈ Form.grouped ∧ (Form.one 0x83 false, a.digit, 1) ∈ Form.grouped

instance (a : Alu) : Decidable a.Known := inferInstanceAs (Decidable (_ ∧ _))

theorem selectAlu_picks {a : Alu} (known : a.Known) (d : RegNum) (src : Operand) :
    Picks cfg p (selectAlu cfg a d src) := by
  obtain ⟨into, outOf, word, byte⟩ := known
  cases src with
  | reg s => exact .check fun _ _ => .emit (chosen_gpRegReg into _ _ _)
  | imm i =>
    dsimp only [selectAlu]
    split
    · exact .emit (chosen_gpByte byte _ _ _)
    · refine .emit (.grouped ?_ _)
      exact word
  | mem m =>
    refine .emit (.general ?_ _ _)
    exact outOf

theorem selectArithBase_picks (op : Op) (dst : Reg) (src : Operand) :
    Picks cfg p (selectArithBase cfg op dst src) := by
  refine .check fun _ _ => ?_
  split
  · next a found =>
    have known : a.Known := by
      cases op <;> cases found <;> decide
    exact selectAlu_picks known _ _
  · exact .fail _

theorem selectShiftBase_picks (op : Op) (signed : Bool) (dst : Reg) (count : Imm) :
    Picks cfg p (selectShiftBase cfg op signed dst count) := by
  refine .check fun d _ => ?_
  have emits {digit : RegNum} (listed : (Form.one 0xC1 false, digit, 1) ∈ Form.grouped) (n : UInt8) :
      Picks cfg p (.emit (.legacy (.one 0xC1 (base64 cfg)) digit (.reg d) [n])) := by
    refine .emit (.grouped ?_ _)
    exact listed
  dsimp only
  split
  · exact emits (by decide) _
  · cases signed with
    | true => exact emits (by decide) _
    | false => exact emits (by decide) _
  · exact .fail _

theorem selectCompareJump_picks (c : Cond) (x : Reg) (y : Operand) (target : LabelRef) :
    Picks cfg p (selectCompareJump cfg c x y target) := by
  refine .check fun d _ => ?_
  split
  · next cc found =>
    have code : cc < 16 := by
      cases c <;> cases found <;> decide
    exact (selectAlu_picks (by decide) d y).bind fun _ _ => .emit (.jcc code _)
  · exact .fail _

end

/-- Every instruction that is selected for a primitive is one of those that are known. -/
theorem select_chosen (cfg : Config) (p : Primitive) : Picks cfg p (select cfg p) := by
  cases p with
  | move dst src => exact selectMove_picks ..
  | logic op dst s1 s2 => exact selectLogic_picks ..
  | not dst src => exact selectNot_picks ..
  | arith op e dst s1 s2 =>
    refine selectBinary_picks _ _ _ _ fun formed => ?_
    rw [show op.isCompare = false from formed, Bool.and_false]
    rfl
  | shift op e dst src count => exact selectShift_picks _ _ _ _ id
  | shiftEach op e dst src counts => exact selectShiftEach_picks _ _ _ _ id
  | compare c e dst s1 s2 =>
    dsimp only [select, selectCompare]
    split
    · next native =>
      refine selectBinary_picks _ _ _ _ fun _ => ?_
      cases float : e.isFloat with
      | false => rfl
      | true =>
        have compares : c.isCompare = true := by
          cases c <;> first | rfl | simp [nativeCompare, float] at native
        rw [compares]
        rfl
    · exact .fail _
  | merge dst src mask => exact selectMerge_picks ..
  | maskJump src cond target => exact selectMaskJump_picks ..
  | moveBase dst src => exact selectMoveBase_picks ..
  | arithBase op dst src => exact selectArithBase_picks ..
  | shiftBase op signed dst count => exact selectShiftBase_picks ..
  | compareJump c x y target => exact selectCompareJump_picks ..
  | jump target => exact .emit (.jmp _)
  | bind l => exact .emitAll (List.forall_mem_nil _)

end X86

end LaneAsm
