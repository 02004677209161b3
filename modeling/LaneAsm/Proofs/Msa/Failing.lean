import LaneAsm.Proofs.Failing

/-!
Requests that the MIPS encoder refuses. Nearly all of them are refused before anything is encoded.
An operation or a condition without an encoding is noticed only after a source that is not in a
register has been loaded (`Stray`, `select_leaves`).
-/
namespace LaneAsm.Msa

open Emission

/-! ## Registers -/

theorem vectorNum_ok {r : Reg} (inside : r.InFile 32) : ∃ n, vectorNum r = .ok n := by
  obtain ⟨kind, least, most⟩ := inside
  exact ⟨_, dif_pos ⟨kind, least, by omega⟩⟩

theorem inFile_of_vectorNum {r : Reg} {n : Num} (found : vectorNum r = .ok n) : r.InFile 32 := by
  unfold vectorNum at found
  split at found
  · next inside => exact ⟨inside.1, inside.2.1, by omega⟩
  · cases found

theorem baseNum_ok {r : Reg} (inside : r.InBase) : ∃ n, baseNum r = .ok n := by
  obtain ⟨n, found⟩ := inside.general?
  refine ⟨n, ?_⟩
  rw [baseNum, inside.1, found]

theorem inBase_of_baseNum {r : Reg} {n : Num} (found : baseNum r = .ok n) : r.InBase := by
  unfold baseNum at found
  split at found
  · next kind given =>
    unfold general? at given
    split at given
    · next least =>
      obtain ⟨below, _⟩ := List.getElem?_eq_some_iff.mp given
      have most : r.index.toNat < 16 := below
      exact ⟨kind, least, by omega⟩
    · cases given
  · cases found

/-- A register that is refused is not in the file. -/
theorem not_inFile_of_vectorNum {r : Reg} {e : Error} (refused : vectorNum r = .error e) :
    ¬ r.InFile 32 := by
  intro inside
  obtain ⟨n, found⟩ := vectorNum_ok inside
  rw [found] at refused
  cases refused

theorem not_inBase_of_baseNum {r : Reg} {e : Error} (refused : baseNum r = .error e) :
    ¬ r.InBase := by
  intro inside
  obtain ⟨n, found⟩ := baseNum_ok inside
  rw [found] at refused
  cases refused

/-! ## Loads -/

section
variable {cfg : Config}

theorem put_total (i : Insn) : (put i).Total := .emit _

theorem general_total (r : Reg) : (general r).Total := by
  unfold general
  split
  · exact .pure _
  · exact fun _ => nofun

theorem resolve_total (fits : Int → Bool) (m : Mem) : (resolve cfg fits m).Total := by
  refine (general_total _).bind fun _ _ => ?_
  extract_lets disp rest
  have far (r : Num) : (rest r).Total := by
    dsimp only [rest]
    split
    · exact .pure _
    split
    · exact (put_total _).bind fun _ _ => .pure _
    · exact (Total.emitAll _).bind fun _ _ => (put_total _).bind fun _ _ => .pure _
  split
  · exact (Total.pure _).bind fun _ _ => far _
  · refine (general_total _).bind fun _ _ => (put_total _).bind fun _ _ => ?_
    exact (Total.pure _).bind fun _ _ => far _

theorem accessVector_total (store : Bool) (w : Num) (m : Mem) : (accessVector cfg store w m).Total :=
  (resolve_total _ m).bind fun _ _ => put_total _

theorem accessGeneral_total (op : ImmOp) (rt : Num) (m : Mem) : (accessGeneral cfg op rt m).Total :=
  (resolve_total _ m).bind fun _ _ => put_total _

/-- What ends well with an instruction has produced one. -/
theorem items_ne_nil_of_put {α : Type} {x : Selection α} {i : α → Insn}
    (ended : (x >>= fun a => put (i a)).outcome = .ok ()) : (x >>= fun a => put (i a)).items ≠ [] := by
  obtain ⟨a, _, _, items⟩ := bind_ok ended
  rw [items]
  exact List.append_ne_nil_of_right_ne_nil _ (List.cons_ne_nil _ _)

theorem loadImmediate_ne_nil (r : Num) (v : Int) : loadImmediate r v ≠ [] := by
  simp only [loadImmediate]
  split
  · exact List.cons_ne_nil _ _
  · exact List.cons_ne_nil _ _

/-- A source in memory is loaded first. -/
theorem vectorSource_mem (m : Mem) : (vectorSource cfg (.mem m)).Total ∧
    ∀ n, (vectorSource cfg (.mem m)).outcome = .ok n → (vectorSource cfg (.mem m)).items ≠ [] := by
  constructor
  · exact (accessVector_total _ _ m).bind fun _ _ => .pure _
  · intro n ended
    obtain ⟨_, loaded, _, items⟩ := bind_ok ended
    rw [vectorSource, items]
    exact List.append_ne_nil_of_left_ne_nil (items_ne_nil_of_put loaded) _

/-- A base source that is not in a register is loaded first. -/
theorem baseSource_other {o : Operand} (other : ∀ r, o ≠ .reg r) : (baseSource cfg o).Total ∧
    ∀ n, (baseSource cfg o).outcome = .ok n → (baseSource cfg o).items ≠ [] := by
  cases o with
  | reg r => exact absurd rfl (other r)
  | imm i =>
    constructor
    · exact (Total.emitAll _).bind fun _ _ => .pure _
    · intro n _
      refine List.append_ne_nil_of_left_ne_nil ?_ _
      exact fun nothing => loadImmediate_ne_nil rT9 i.signed (List.map_eq_nil_iff.mp nothing)
  | mem m =>
    constructor
    · exact (accessGeneral_total _ _ m).bind fun _ _ => .pure _
    · intro n ended
      obtain ⟨_, loaded, _, items⟩ := bind_ok ended
      rw [baseSource, items]
      exact List.append_ne_nil_of_left_ne_nil (items_ne_nil_of_put loaded) _

/-- A source is refused before anything is loaded. -/
theorem vectorSource_leaves {stray : Prop} (o : Operand) (clean : ¬ stray) :
    (vectorSource cfg o).Leaves stray := by
  cases o with
  | reg r => exact .of_nil rfl clean
  | mem m => exact .of_total (vectorSource_mem m).1
  | imm i => exact .of_nil rfl clean

theorem baseSource_leaves {stray : Prop} (o : Operand) (clean : ¬ stray) :
    (baseSource cfg o).Leaves stray := by
  by_cases register : ∃ r, o = .reg r
  · obtain ⟨r, rfl⟩ := register
    exact .of_nil rfl clean
  · exact .of_total (baseSource_other fun r same => register ⟨r, same⟩).1

end

/-! ## Requests -/

/-- The requests that are refused after a load: what is asked for has no encoding, and a source is
not in a register. -/
def Stray : Primitive → Prop
  | .logic op d x (.mem _) =>
    (op ≠ .and ∧ op ≠ .orr ∧ op ≠ .xor) ∧ d.InFile 32 ∧ x.InFile 32
  | .arithBase op d y => Program.baseOp op = false ∧ d.InBase ∧ ∀ r, y ≠ .reg r
  | .compareJump c x y _ => c ∉ Cond.named ∧ x.InBase ∧ ∀ r, y ≠ .reg r
  | _ => False

section
variable (cfg : Config)

theorem selectMove_leaves (dst src : Operand) : (selectMove cfg dst src).Leaves False := by
  cases dst with
  | reg d =>
    cases src with
    | reg s =>
      refine .check (fun _ _ => id) fun _ _ => .check (fun _ _ => id) fun _ _ => .of_total ?_
      split
      · exact .emitAll _
      · exact put_total _
    | mem m => exact .check (fun _ _ => id) fun _ _ => .of_total (accessVector_total _ _ m)
    | imm i => exact .check (fun _ _ => id) fun _ _ => .fail _ id
  | mem m =>
    cases src with
    | reg s => exact .check (fun _ _ => id) fun _ _ => .of_total (accessVector_total _ _ m)
    | _ => exact .fail _ id
  | imm i => cases src <;> exact .fail _ id

theorem selectLogic_leaves (op : Op) (dst s1 : Reg) (s2 : Operand) :
    (selectLogic cfg op dst s1 s2).Leaves (Stray (.logic op dst s1 s2)) := by
  cases s2 with
  | reg r =>
    refine .check (fun _ _ => id) fun _ _ => .check (fun _ _ => id) fun _ _ => ?_
    refine .check (fun _ _ => id) fun _ _ => ?_
    split <;> first | exact .of_total (put_total _) | exact .fail _ id
  | imm i =>
    exact .check (fun _ _ => id) fun _ _ => .check (fun _ _ => id) fun _ _ => .of_nil rfl id
  | mem m =>
    refine .check (fun _ refused => ?_) fun d first => ?_
    · exact fun stray => not_inFile_of_vectorNum refused stray.2.1
    refine .check (fun _ refused => ?_) fun x second => ?_
    · exact fun stray => not_inFile_of_vectorNum refused stray.2.2
    obtain ⟨total, started⟩ := @vectorSource_mem cfg m
    by_cases encoded : op = .and ∨ op = .orr ∨ op = .xor
    · refine .of_total (total.bind fun y _ => ?_)
      rcases encoded with rfl | rfl | rfl <;> exact put_total _
    · simp only [not_or] at encoded
      exact .after total started ⟨encoded, inFile_of_vectorNum first, inFile_of_vectorNum second⟩

theorem selectThree_leaves (op : Op) (e : Elem) (dst s1 : Reg) (s2 : Operand) :
    (selectThree cfg op e dst s1 s2).Leaves False := by
  refine .check (fun _ _ => id) fun _ _ => .check (fun _ _ => id) fun _ _ => ?_
  split
  · exact (vectorSource_leaves s2 id).bind fun _ _ => put_total _
  · exact .fail _ id

theorem selectShift_leaves (op : Op) (e : Elem) (dst src : Reg) (count : Operand) :
    (selectShift cfg op e dst src count).Leaves False := by
  refine .check (fun _ _ => id) fun _ _ => .check (fun _ _ => id) fun _ _ => ?_
  cases count with
  | imm i => exact .of_total (put_total _)
  | mem m =>
    refine .of_total ((accessVector_total _ _ m).bind fun _ _ => ?_)
    exact (put_total _).bind fun _ _ => put_total _
  | reg r => exact .fail _ id

theorem selectMerge_leaves (dst : Reg) (src : Operand) (mask : Reg) :
    (selectMerge cfg dst src mask).Leaves False := by
  refine .check (fun _ _ => id) fun _ _ => .check (fun _ _ => id) fun _ _ => ?_
  refine (vectorSource_leaves src id).bind fun _ _ => ?_
  split
  · exact .emitAll _
  · exact put_total _

theorem selectMoveBase_leaves (dst src : Operand) : (selectMoveBase cfg dst src).Leaves False := by
  cases dst with
  | reg r =>
    refine .check (fun _ _ => id) fun _ _ => ?_
    cases src with
    | reg s =>
      refine .check (fun _ _ => id) fun _ _ => .of_total ?_
      split
      · exact .emitAll _
      · exact put_total _
    | imm i => exact .of_total (.emitAll _)
    | mem m => exact .of_total (accessGeneral_total _ _ m)
  | mem m =>
    cases src with
    | reg s => exact .check (fun _ _ => id) fun _ _ => .of_total (accessGeneral_total _ _ m)
    | _ => exact .fail _ id
  | imm i => exact .fail _ id

theorem registerForm?_isSome (op : Op) : (registerForm? cfg op).isSome = Program.baseOp op := by
  cases op <;> rfl

theorem selectArithBase_leaves (op : Op) (dst : Reg) (src : Operand) :
    (selectArithBase cfg op dst src).Leaves (Stray (.arithBase op dst src)) := by
  refine .check (fun _ refused => ?_) fun d first => ?_
  · exact fun stray => not_inBase_of_baseNum refused stray.2.1
  split
  · exact .of_total (put_total _)
  have known := registerForm?_isSome cfg op
  cases form : registerForm? cfg op with
  | some fn =>
    rw [form] at known
    have clean : ¬ Stray (.arithBase op dst src) := fun stray => by cases known.trans stray.1
    exact (baseSource_leaves src clean).bind fun _ _ => put_total _
  | none =>
    rw [form] at known
    by_cases register : ∃ r, src = .reg r
    · obtain ⟨r, rfl⟩ := register
      have clean : ¬ Stray (.arithBase op dst (.reg r)) := fun stray => stray.2.2 r rfl
      exact .check (fun _ _ => clean) fun _ _ => .fail _ clean
    · have other : ∀ r, src ≠ .reg r := fun r same => register ⟨r, same⟩
      obtain ⟨total, started⟩ := @baseSource_other cfg src other
      exact .after total started ⟨known.symm, inBase_of_baseNum first, other⟩

theorem selectShiftBase_leaves (op : Op) (signed : Bool) (dst : Reg) (count : Imm) :
    (selectShiftBase cfg op signed dst count).Leaves False := by
  refine .check (fun _ _ => id) fun _ _ => ?_
  dsimp only
  split
  · exact .of_total (put_total _)
  · split
    · exact .of_total (put_total _)
    · exact .of_total (put_total _)
  · exact .fail _ id

theorem ofCond?_isSome {c : Cond} (known : c ∈ Cond.named) (equal : c ≠ .eq) (unequal : c ≠ .ne) :
    ∃ o, Ordering.ofCond? c = some o := by
  cases c with
  | eq => exact absurd rfl equal
  | ne => exact absurd rfl unequal
  | other code => simp [Cond.named] at known
  | _ => exact ⟨_, rfl⟩

theorem selectCompareJump_leaves (c : Cond) (x : Reg) (y : Operand) (l : LabelRef) :
    (selectCompareJump cfg c x y l).Leaves (Stray (.compareJump c x y l)) := by
  refine .check (fun _ refused => ?_) fun a first => ?_
  · exact fun stray => not_inBase_of_baseNum refused stray.2.1
  by_cases known : c ∈ Cond.named
  · have clean : ¬ Stray (.compareJump c x y l) := fun stray => stray.1 known
    refine (baseSource_leaves y clean).bind fun b _ => ?_
    dsimp only
    split
    · exact .emit _
    · exact .emit _
    · next equal unequal =>
      obtain ⟨o, found⟩ := ofCond?_isSome known equal unequal
      rw [found]
      exact (put_total _).bind fun _ _ => .emit _
  by_cases register : ∃ r, y = .reg r
  · obtain ⟨r, rfl⟩ := register
    have clean : ¬ Stray (.compareJump c x (.reg r) l) := fun stray => stray.2.2 r rfl
    refine .check (fun _ _ => clean) fun b _ => ?_
    cases c with
    | other code => exact .fail _ clean
    | _ => exact absurd (by decide) known
  · have other : ∀ r, y ≠ .reg r := fun r same => register ⟨r, same⟩
    obtain ⟨total, started⟩ := @baseSource_other cfg y other
    exact .after total started ⟨known, inBase_of_baseNum first, other⟩

end

/-- A request that is refused leaves instructions behind exactly if it is one of those that load a
source before they are refused. -/
theorem select_leaves (cfg : Config) (p : Primitive) : (select cfg p).Leaves (Stray p) := by
  cases p with
  | move dst src => exact selectMove_leaves cfg dst src
  | logic op dst s1 s2 => exact selectLogic_leaves cfg op dst s1 s2
  | not dst src =>
    exact .check (fun _ _ => id) fun _ _ => .check (fun _ _ => id) fun _ _ => .of_total (put_total _)
  | arith op e dst s1 s2 => exact selectThree_leaves cfg op e dst s1 s2
  | shift op e dst src count => exact selectShift_leaves cfg op e dst src count
  | shiftEach op e dst src counts => exact selectThree_leaves cfg op e dst src counts
  | compare c e dst s1 s2 =>
    dsimp only [select, selectCompare]
    split
    · exact selectThree_leaves cfg c e dst s1 s2
    · exact .fail _ id
  | merge dst src mask => exact selectMerge_leaves cfg dst src mask
  | maskJump src cond target =>
    refine .check (fun _ _ => id) fun _ _ => .of_total ?_
    exact (put_total _).bind fun _ _ => .emit _
  | moveBase dst src => exact selectMoveBase_leaves cfg dst src
  | arithBase op dst src => exact selectArithBase_leaves cfg op dst src
  | shiftBase op signed dst count => exact selectShiftBase_leaves cfg op signed dst count
  | compareJump c x y target => exact selectCompareJump_leaves cfg c x y target
  | jump target => exact .of_total (.emit _)
  | bind l => exact .of_total (.emitAll _)

end LaneAsm.Msa
