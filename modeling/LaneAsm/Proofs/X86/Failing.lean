import LaneAsm.Proofs.Failing
import LaneAsm.Proofs.X86.Chosen

/-!
Requests that the x86 encoder refuses. Operands and operations are checked before anything is
encoded, but an operation that is expanded stages its sources first: where its lanes do not fill the
register, or where a shift by one count is asked for as an operation on two sources, the staging is
left behind (`Stray`, `select_leaves`).
-/
namespace LaneAsm

/-- The steps of a plan fill its width. -/
def Plan.Splits (p : Plan) : Prop := 0 < p.narrow ∧ p.wide.tmod p.narrow = 0

theorem Plan.groups_ok {p : Plan} (expanded : p.unit ≠ .none) (splits : p.Splits) :
    p.groups = .ok ((List.range p.steps.toNat).map fun i => (i, i * p.narrow)) := by
  obtain ⟨least, whole⟩ := splits
  refine if_neg ?_
  rintro (none | empty | rest)
  · exact expanded none
  · omega
  · exact rest whole

namespace X86

open Emission

/-! ## Registers and sources -/

theorem vectorNum_ok {r : Reg} (inside : r.InFile 16) : ∃ n, vectorNum r = .ok n := by
  obtain ⟨kind, least, most⟩ := inside
  exact ⟨_, dif_pos ⟨kind, least, by omega⟩⟩

theorem inFile_of_vectorNum {r : Reg} {n : RegNum} (found : vectorNum r = .ok n) : r.InFile 16 := by
  unfold vectorNum number at found
  split at found
  · next inside => exact ⟨inside.1, inside.2.1, by omega⟩
  · cases found

theorem not_inFile_of_vectorNum {r : Reg} {e : Error} (refused : vectorNum r = .error e) :
    ¬ r.InFile 16 := by
  intro inside
  obtain ⟨n, found⟩ := vectorNum_ok inside
  rw [found] at refused
  cases refused

/-- The second source of a vector operation: a register of the file, or memory that the stack
pointer has no part in. -/
def Sourced : Operand → Prop
  | .reg r => r.InFile 16
  | .mem m => checkVectorMem m = .ok ()
  | .imm _ => False

theorem vectorSource_ok {o : Operand} (sourced : Sourced o) : ∃ y, vectorSource o = .ok y := by
  cases o with
  | reg r =>
    obtain ⟨n, found⟩ := vectorNum_ok sourced
    exact ⟨.reg n, by rw [vectorSource, found]; rfl⟩
  | mem m =>
    refine ⟨.mem m, ?_⟩
    have passed : checkVectorMem m = .ok () := sourced
    rw [vectorSource, passed]
    rfl
  | imm i => exact sourced.elim

theorem sourced_of_vectorSource {o : Operand} {y : Rm} (found : vectorSource o = .ok y) :
    Sourced o := by
  cases o with
  | reg r =>
    cases given : vectorNum r with
    | ok n => exact inFile_of_vectorNum given
    | error e =>
      rw [vectorSource, given] at found
      cases found
  | mem m =>
    obtain ⟨_, passed, _⟩ := bind_eq_ok.mp found
    exact passed
  | imm i => cases found

theorem not_sourced_of_vectorSource {o : Operand} {e : Error} (refused : vectorSource o = .error e) :
    ¬ Sourced o := by
  intro sourced
  obtain ⟨y, found⟩ := vectorSource_ok sourced
  rw [found] at refused
  cases refused

/-! ## Plans -/

section
variable {cfg : Config} {op : Op} {e : Elem} {p : Plan}

theorem planOf_eq_ok : planOf cfg op e = .ok p ↔ planOf? cfg op e = some p := by
  unfold planOf
  constructor
  · intro found
    split at found
    · next given => rw [given, Except.ok.inj found]
    · cases found
  · intro given
    rw [given]

theorem planOf_eq_error {e' : Error} (refused : planOf cfg op e = .error e') :
    planOf? cfg op e = none := by
  unfold planOf at refused
  split at refused
  · cases refused
  · next missing => exact missing

/-- An operation is encoded as it stands, in steps of sixteen bytes, or lane by lane. -/
theorem planOf?_cases (found : planOf? cfg op e = some p) :
    p.unit = .none ∨ p = ⟨.vector, cfg.physBytes, 16⟩ ∨
      p = ⟨.scalar, cfg.physBytes, e.bytes⟩ ∧ scalarOp op e = true := by
  have lanes (given : (if scalarOp op e then some (⟨.scalar, cfg.physBytes, e.bytes⟩ : Plan) else none)
      = some p) : p = ⟨.scalar, cfg.physBytes, e.bytes⟩ ∧ scalarOp op e = true := by
    split at given
    · next can => exact ⟨(Option.some.inj given).symm, can⟩
    · cases given
  unfold planOf? planFor? at found
  dsimp only at found
  split at found
  · split at found
    · split at found
      · obtain rfl := Option.some.inj found
        exact .inl rfl
      split at found
      · exact .inr (.inl (Option.some.inj found).symm)
      · exact .inr (.inr (lanes found))
    · exact .inr (.inr (lanes found))
  · exact .inr (.inr (lanes found))

/-- What is computed lane by lane has a form for two lanes, shifts by one count apart. -/
theorem scalar_ok (can : scalarOp op e = true) (left : op ≠ .shl) (right : op ≠ .shr) :
    ∃ is, scalar op e = .ok is := by
  cases op with
  | shl => exact absurd rfl left
  | shr => exact absurd rfl right
  | _ => first | exact ⟨_, rfl⟩ | simp [scalarOp] at can

/-! ## Expansions -/

theorem eachGroup_total {step : Int → Selection Unit} (expanded : p.unit ≠ .none) (splits : p.Splits)
    (steps : 0 < p.steps → ∀ offset, (step offset).Total) : (eachGroup p step).Total := by
  refine .check (Plan.groups_ok expanded splits) (.each fun group member => ?_)
  obtain ⟨i, below, rfl⟩ := List.mem_map.mp member
  have some := List.mem_range.mp below
  exact steps (by omega) _

theorem aroundScalar_total {work : Selection Unit} (total : work.Total) : (aroundScalar work).Total :=
  (Total.emitAll _).bind fun _ _ => total.andFinally _

theorem expand_total (found : planOf? cfg op e = some p) (expanded : p.unit ≠ .none)
    (splits : p.Splits)
    (paired : p.unit = .scalar → 0 < p.steps → op ≠ .shl ∧ op ≠ .shr) (f : Form) (dst s1 : RegNum)
    (s2 : Rm) : (expand cfg p op e f dst s1 s2).Total := by
  refine (Total.emitAll _).bind fun _ _ => ?_
  rcases planOf?_cases found with none | rfl | ⟨rfl, can⟩
  · exact absurd none expanded
  · exact (eachGroup_total expanded splits fun _ _ => .emitAll _).bind fun _ _ => .emit _
  · refine (aroundScalar_total (eachGroup_total expanded splits fun several offset => ?_)).bind
      fun _ _ => .emit _
    obtain ⟨left, right⟩ := paired rfl several
    obtain ⟨is, form⟩ := scalar_ok can left right
    refine (Total.emitAll _).bind fun _ _ => .check form ?_
    exact (Total.emitAll _).bind fun _ _ => .emit _

theorem expandShift_total (found : planOf? cfg op e = some p) (expanded : p.unit ≠ .none)
    (splits : p.Splits) (dst src : RegNum) (count : Count) :
    (expandShift cfg p op e dst src count).Total := by
  refine (Total.emit _).bind fun _ _ => ?_
  rcases planOf?_cases found with none | rfl | ⟨rfl, can⟩
  · exact absurd none expanded
  · have halves (insns : Int → List Insn) :
        (eachGroup ⟨.vector, cfg.physBytes, 16⟩ fun offset => .emitAll (insns offset)).Total :=
      eachGroup_total expanded splits fun _ _ => .emitAll _
    cases count with
    | imm n => exact (Total.emitAll _).bind fun _ _ => (halves _).bind fun _ _ => .emit _
    | mem m => exact (Total.emitAll _).bind fun _ _ => (halves _).bind fun _ _ => .emit _
  · refine (aroundScalar_total ((Total.emitAll _).bind fun _ _ => ?_)).bind fun _ _ => .emit _
    exact eachGroup_total expanded splits fun _ _ => .emitAll _

end

/-! ## Requests -/

/-- An expanded operation on one source whose steps do not fill the register. -/
def Spills (cfg : Config) (op : Op) (e : Elem) : Prop :=
  ∃ p, planOf? cfg op e = some p ∧ p.unit ≠ .none ∧ ¬ p.Splits

/-- An expanded operation on two sources whose steps do not fill the register or have no form. -/
def Breaks (cfg : Config) (op : Op) (e : Elem) : Prop :=
  Spills cfg op e ∨ ∃ p, planOf? cfg op e = some p ∧ p.unit = .scalar ∧ 0 < p.steps ∧
    (op = .shl ∨ op = .shr)

/-- The requests that are refused after their sources are staged. -/
def Stray (cfg : Config) : Primitive → Prop
  | .arith op e d x y | .shiftEach op e d x y =>
    Breaks cfg op e ∧ d.InFile 16 ∧ x.InFile 16 ∧ Sourced y
  | .compare c e d x y =>
    nativeCompare c e = true ∧ Breaks cfg c e ∧ d.InFile 16 ∧ x.InFile 16 ∧ Sourced y
  | .shift op e d x (.imm _) => Spills cfg op e ∧ d.InFile 16 ∧ x.InFile 16
  | .shift op e d x (.mem m) =>
    Spills cfg op e ∧ d.InFile 16 ∧ x.InFile 16 ∧ checkVectorMem m = .ok ()
  | _ => False

section
variable {cfg : Config} {op : Op} {e : Elem} {p : Plan} {stray : Prop}

/-- The sources are staged before the steps are looked at. -/
theorem expand_leaves (found : planOf? cfg op e = some p) (expanded : p.unit ≠ .none)
    (late : Breaks cfg op e → stray) (f : Form) (dst s1 : RegNum) (s2 : Rm) :
    (expand cfg p op e f dst s1 s2).Leaves stray := by
  refine .of_started (List.append_ne_nil_of_left_ne_nil (List.cons_ne_nil _ _) _) fun clean => ?_
  have whole : ¬ Breaks cfg op e := fun breaks => clean (late breaks)
  by_cases splits : p.Splits
  · refine expand_total found expanded splits (fun scalar several => ?_) f dst s1 s2
    constructor
    · rintro rfl
      exact whole (.inr ⟨p, found, scalar, several, .inl rfl⟩)
    · rintro rfl
      exact whole (.inr ⟨p, found, scalar, several, .inr rfl⟩)
  · exact absurd (.inl ⟨p, found, expanded, splits⟩) whole

theorem expandShift_leaves (found : planOf? cfg op e = some p) (expanded : p.unit ≠ .none)
    (late : Spills cfg op e → stray) (dst src : RegNum) (count : Count) :
    (expandShift cfg p op e dst src count).Leaves stray := by
  refine .of_started (List.append_ne_nil_of_left_ne_nil (List.cons_ne_nil _ _) _) fun clean => ?_
  by_cases splits : p.Splits
  · exact expandShift_total found expanded splits dst src count
  · exact absurd (late ⟨p, found, expanded, splits⟩) clean

end

section
variable (cfg : Config)

theorem not_spills_of_planOf {cfg : Config} {op : Op} {e : Elem} {e' : Error}
    (refused : planOf cfg op e = .error e') : ¬ Spills cfg op e := by
  rintro ⟨p, found, _⟩
  rw [planOf_eq_error refused] at found
  cases found

theorem not_breaks_of_planOf {cfg : Config} {op : Op} {e : Elem} {e' : Error}
    (refused : planOf cfg op e = .error e') : ¬ Breaks cfg op e := by
  rintro (spills | ⟨p, found, _⟩)
  · exact not_spills_of_planOf refused spills
  · rw [planOf_eq_error refused] at found
    cases found

/-- An operation on two sources: operands and plan are checked, then it is expanded or `whole`. -/
theorem two_leaves {op : Op} {e : Elem} {dst s1 : Reg} {s2 : Operand} {f : Form}
    {whole : RegNum → RegNum → Rm → Selection Unit} (total : ∀ d x y, (whole d x y).Total) :
    (do
      let d ← Emission.check (vectorNum dst)
      let x ← Emission.check (vectorNum s1)
      let y ← Emission.check (vectorSource s2)
      let p ← Emission.check (planOf cfg op e)
      if p.unit = .none then whole d x y else expand cfg p op e f d x y : Selection Unit).Leaves
        (Breaks cfg op e ∧ dst.InFile 16 ∧ s1.InFile 16 ∧ Sourced s2) := by
  refine .check (fun _ refused stray => not_inFile_of_vectorNum refused stray.2.1) fun d first => ?_
  refine .check (fun _ refused stray => not_inFile_of_vectorNum refused stray.2.2.1) fun x second => ?_
  refine .check (fun _ refused stray => not_sourced_of_vectorSource refused stray.2.2.2)
    fun y third => ?_
  refine .check (fun _ refused stray => not_breaks_of_planOf refused stray.1) fun p planned => ?_
  split
  · exact .of_total (total d x y)
  · next expanded =>
    refine expand_leaves (planOf_eq_ok.mp planned) expanded (fun breaks => ?_) _ _ _ _
    exact ⟨breaks, inFile_of_vectorNum first, inFile_of_vectorNum second, sourced_of_vectorSource third⟩

theorem selectBinary_leaves (op : Op) (e : Elem) (dst s1 : Reg) (s2 : Operand) (imm : List UInt8) :
    (selectBinary cfg op e dst s1 s2 imm).Leaves
      (Breaks cfg op e ∧ dst.InFile 16 ∧ s1.InFile 16 ∧ Sourced s2) :=
  two_leaves cfg fun _ _ _ => .emitAll _

theorem selectShiftEach_leaves (op : Op) (e : Elem) (dst src : Reg) (counts : Operand) :
    (selectShiftEach cfg op e dst src counts).Leaves
      (Breaks cfg op e ∧ dst.InFile 16 ∧ src.InFile 16 ∧ Sourced counts) :=
  two_leaves cfg fun _ _ _ => .emitAll _

theorem selectShift_leaves (op : Op) (e : Elem) (dst src : Reg) (count : Operand) :
    (selectShift cfg op e dst src count).Leaves (Stray cfg (.shift op e dst src count)) := by
  cases count with
  | reg r =>
    refine .check (fun _ _ => id) fun _ _ => .check (fun _ _ => id) fun _ _ => ?_
    exact .check (fun _ _ => id) fun _ _ => .fail _ id
  | imm i =>
    refine .check (fun _ refused stray => not_inFile_of_vectorNum refused stray.2.1) fun d first => ?_
    refine .check (fun _ refused stray => not_inFile_of_vectorNum refused stray.2.2) fun s second => ?_
    refine .check (fun _ refused stray => not_spills_of_planOf refused stray.1) fun p planned => ?_
    dsimp only
    split
    · exact .of_total (.emitAll _)
    · next expanded =>
      refine expandShift_leaves (planOf_eq_ok.mp planned) expanded (fun spills => ?_) _ _ _
      exact ⟨spills, inFile_of_vectorNum first, inFile_of_vectorNum second⟩
  | mem m =>
    refine .check (fun _ refused stray => not_inFile_of_vectorNum refused stray.2.1) fun d first => ?_
    refine .check (fun _ refused stray => not_inFile_of_vectorNum refused stray.2.2.1) fun s second => ?_
    refine .check (fun _ refused stray => not_spills_of_planOf refused stray.1) fun p planned => ?_
    refine .check (fun _ refused stray => ?_) fun _ passed => ?_
    · rw [stray.2.2.2] at refused
      cases refused
    split
    · exact .of_total (.emitAll _)
    · next expanded =>
      refine expandShift_leaves (planOf_eq_ok.mp planned) expanded (fun spills => ?_) _ _ _
      exact ⟨spills, inFile_of_vectorNum first, inFile_of_vectorNum second, passed⟩

theorem selectMove_leaves (dst src : Operand) : (selectMove cfg dst src).Leaves False := by
  cases dst with
  | reg d =>
    refine .check (fun _ _ => id) fun _ _ => .check (fun _ _ => id) fun y _ => .of_total ?_
    cases y with
    | mem m => exact .emit _
    | reg s => exact .emitAll _
  | mem m =>
    cases src with
    | reg s =>
      exact .check (fun _ _ => id) fun _ _ => .check (fun _ _ => id) fun _ _ => .of_total (.emit _)
    | _ => exact .fail _ id
  | imm i => exact .fail _ id

theorem selectLogic_leaves (op : Op) (dst s1 : Reg) (s2 : Operand) :
    (selectLogic cfg op dst s1 s2).Leaves False := by
  refine .check (fun _ _ => id) fun _ _ => .check (fun _ _ => id) fun _ _ => ?_
  refine .check (fun _ _ => id) fun _ _ => ?_
  dsimp only
  split <;> first | exact .of_total (.emitAll _) | exact .fail _ id

theorem selectMerge_leaves (dst : Reg) (src : Operand) (mask : Reg) :
    (selectMerge cfg dst src mask).Leaves False := by
  refine .check (fun _ _ => id) fun _ _ => .check (fun _ _ => id) fun _ _ => ?_
  refine .check (fun _ _ => id) fun _ _ => .of_total ?_
  dsimp only
  split
  · exact .emitAll _
  split
  · split
    · exact .emit _
    · exact .emitAll _
  split
  · exact .emit _
  · exact .emitAll _

theorem selectMaskJump_leaves (src : Reg) (cond : MaskCond) (target : LabelRef) :
    (selectMaskJump cfg src cond target).Leaves False := by
  refine .check (fun _ _ => id) fun _ _ => .of_total ?_
  dsimp only
  split
  · exact (Total.emitAll _).bind fun _ _ => .emitAll _
  · exact (Total.pure _).bind fun _ _ => .emitAll _

theorem selectMoveBase_leaves (dst src : Operand) : (selectMoveBase cfg dst src).Leaves False := by
  cases dst with
  | reg r =>
    refine .check (fun _ _ => id) fun _ _ => ?_
    cases src with
    | reg s =>
      refine .check (fun _ _ => id) fun _ _ => .of_total ?_
      split
      · exact .emitAll _
      · exact .emit _
    | imm i =>
      refine .of_total ?_
      dsimp only
      split
      · exact .emit _
      · exact .emit _
    | mem m => exact .of_total (.emit _)
  | mem m =>
    cases src with
    | reg s => exact .check (fun _ _ => id) fun _ _ => .of_total (.emit _)
    | _ => exact .fail _ id
  | imm i => exact .fail _ id

theorem selectAlu_leaves (a : Alu) (d : RegNum) (src : Operand) : (selectAlu cfg a d src).Leaves False := by
  cases src with
  | reg s => exact .check (fun _ _ => id) fun _ _ => .of_total (.emit _)
  | imm i =>
    refine .of_total ?_
    dsimp only [selectAlu]
    split
    · exact .emit _
    · exact .emit _
  | mem m => exact .of_total (.emit _)

theorem selectArithBase_leaves (op : Op) (dst : Reg) (src : Operand) :
    (selectArithBase cfg op dst src).Leaves False := by
  refine .check (fun _ _ => id) fun _ _ => ?_
  split
  · exact selectAlu_leaves cfg _ _ src
  · exact .fail _ id

theorem selectShiftBase_leaves (op : Op) (signed : Bool) (dst : Reg) (count : Imm) :
    (selectShiftBase cfg op signed dst count).Leaves False := by
  refine .check (fun _ _ => id) fun _ _ => ?_
  dsimp only
  split <;> first | exact .of_total (.emit _) | exact .fail _ id

theorem selectCompareJump_leaves (c : Cond) (x : Reg) (y : Operand) (l : LabelRef) :
    (selectCompareJump cfg c x y l).Leaves False := by
  refine .check (fun _ _ => id) fun _ _ => ?_
  split
  · exact (selectAlu_leaves cfg _ _ y).bind fun _ _ => .emit _
  · exact .fail _ id

end

/-- A request that is refused leaves instructions behind exactly if it is one of those that stage
their sources before they are refused. -/
theorem select_leaves (cfg : Config) (p : Primitive) : (select cfg p).Leaves (Stray cfg p) := by
  cases p with
  | move dst src => exact selectMove_leaves cfg dst src
  | logic op dst s1 s2 => exact selectLogic_leaves cfg op dst s1 s2
  | not dst src =>
    refine .check (fun _ _ => id) fun _ _ => .check (fun _ _ => id) fun _ _ => ?_
    exact .of_total (.emitAll _)
  | arith op e dst s1 s2 => exact selectBinary_leaves cfg op e dst s1 s2 []
  | shift op e dst src count => exact selectShift_leaves cfg op e dst src count
  | shiftEach op e dst src counts => exact selectShiftEach_leaves cfg op e dst src counts
  | compare c e dst s1 s2 =>
    by_cases native : nativeCompare c e = true
    · have binary := selectBinary_leaves cfg c e dst s1 s2 (if e.isFloat then [floatPredicate c] else [])
      rw [select, selectCompare, if_pos native]
      intro e' failed
      rw [binary e' failed, Stray]
      simp only [native, true_and]
    · rw [select, selectCompare, if_neg native]
      exact .fail _ fun stray => native stray.1
  | merge dst src mask => exact selectMerge_leaves cfg dst src mask
  | maskJump src cond target => exact selectMaskJump_leaves cfg src cond target
  | moveBase dst src => exact selectMoveBase_leaves cfg dst src
  | arithBase op dst src => exact selectArithBase_leaves cfg op dst src
  | shiftBase op signed dst count => exact selectShiftBase_leaves cfg op signed dst count
  | compareJump c x y target => exact selectCompareJump_leaves cfg c x y target
  | jump target => exact .of_total (.emit _)
  | bind l => exact .of_total (.emitAll _)

end X86

end LaneAsm
