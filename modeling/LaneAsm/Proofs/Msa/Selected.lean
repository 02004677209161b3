import LaneAsm.Msa.Backend
import LaneAsm.Proofs.Settled

/-!
What the MIPS encoder selects. Branches come with the slot after them and go to the label of their
primitive; nothing else is a branch (`select_safe`). The encoder looks up the registers of memory
operands without a check of its own and finds those of settled operands, so that it is steady.
-/
namespace LaneAsm.Msa

open Emission

/-! ## Items -/

/-- Whether an instruction is a branch. -/
def Insn.isBranch : Insn → Bool
  | .branch _ _ _ | .imm .beq _ _ _ | .imm .bne _ _ _ => true
  | _ => false

/-- An instruction that is no branch, or a branch to a given label. -/
def Item.Of (target : Option LabelRef) : Item → Prop
  | .insn i => i.isBranch = false
  | .jump i l => i.isBranch = true ∧ target = some l

section
variable {S : Prop} {target : Option LabelRef} {cfg : Config}

theorem put_safe {i : Insn} (other : i.isBranch = false) : (put i).Safe S (Item.Of target) :=
  .emit other

theorem insns_safe {is : List Insn} (other : ∀ i ∈ is, i.isBranch = false) :
    (Emission.emitAll (is.map Item.insn)).Safe S (Item.Of target) :=
  .emitAll (List.forall_mem_map.2 other)

theorem loadImmediate_other (r : Num) (v : Int) : ∀ i ∈ loadImmediate r v, i.isBranch = false := by
  simp only [loadImmediate]
  repeat' split
  all_goals simp [Insn.isBranch]

theorem immediateForm?_other {op : Op} {v : Int} {iop : ImmOp} {value : UInt16}
    (found : immediateForm? cfg op v = some (iop, value)) : iop ≠ .beq ∧ iop ≠ .bne := by
  unfold immediateForm? at found
  dsimp only at found
  have add : (if base64 cfg then ImmOp.daddiu else .addiu) ≠ .beq
      ∧ (if base64 cfg then ImmOp.daddiu else .addiu) ≠ .bne := by
    split <;> decide
  split at found
  all_goals
    first
    | split at found <;> cases found <;> first | exact add | decide
    | cases found

theorem isBranch_imm {iop : ImmOp} (other : iop ≠ .beq ∧ iop ≠ .bne) (rt rs : Num)
    (value : UInt16) : (Insn.imm iop rt rs value).isBranch = false := by
  cases iop <;> first | rfl | exact absurd rfl other.1 | exact absurd rfl other.2

theorem isBranch_insn (f : Lanewise) (e : Elem) (wd ws wt : Num) :
    (f.insn e wd ws wt).isBranch = false := by
  cases f <;> rfl

/-! ## Addresses -/

theorem general?_of_checkBase {r : Reg} (ok : Config.checkBase r = .ok ()) :
    ∃ n, general? r.index = some n := by
  unfold Config.checkBase at ok
  split at ok
  · cases ok
  split at ok
  · cases ok
  · next inside =>
    have least : 0 ≤ r.index := by omega
    have below : r.index.toNat < baseFile.length := by
      show _ < 16
      omega
    exact ⟨_, by rw [general?, if_pos least, List.getElem?_eq_getElem below]⟩

/-- A base register that was checked is found. -/
theorem general_safe {r : Reg} (ok : S → Config.checkBase r = .ok ()) :
    (general r).Safe S (Item.Of target) := by
  unfold general
  split
  · exact .pure _
  · next missing =>
    refine ⟨List.forall_mem_nil _, fun holds => ?_⟩
    obtain ⟨n, found⟩ := general?_of_checkBase (ok holds)
    rw [missing] at found
    cases found

theorem resolve_safe (fits : Int → Bool) {m : Mem} (settled : S → m.Settled) :
    (resolve cfg fits m).Safe S (Item.Of target) := by
  refine (general_safe fun holds => (settled holds).1).bind fun _ _ => ?_
  extract_lets disp rest
  have far (r : Num) : (rest r).Safe S (Item.Of target) := by
    dsimp only [rest]
    split
    · exact .pure _
    split
    · refine (put_safe ?_).bind fun _ _ => .pure _
      exact isBranch_imm (by split <;> decide) _ _ _
    · refine (insns_safe (loadImmediate_other _ _)).bind fun _ _ => ?_
      exact (put_safe rfl).bind fun _ _ => .pure _
  split
  · exact (Safe.pure _).bind fun _ _ => far _
  · next r given =>
    refine (general_safe fun holds => (settled holds).2 r given).bind fun _ _ => ?_
    exact (put_safe rfl).bind fun _ _ => (Safe.pure _).bind fun _ _ => far _

theorem accessVector_safe (store : Bool) (w : Num) {m : Mem} (settled : S → m.Settled) :
    (accessVector cfg store w m).Safe S (Item.Of target) :=
  (resolve_safe fitsVector settled).bind fun _ _ => put_safe rfl

theorem accessGeneral_safe {op : ImmOp} (other : op ≠ .beq ∧ op ≠ .bne) (rt : Num) {m : Mem}
    (settled : S → m.Settled) : (accessGeneral cfg op rt m).Safe S (Item.Of target) :=
  (resolve_safe fitsShort settled).bind fun _ _ => put_safe (isBranch_imm other _ _ _)

theorem loadBase_safe (rt : Num) {m : Mem} (settled : S → m.Settled) :
    (loadBase cfg rt m).Safe S (Item.Of target) :=
  accessGeneral_safe (by split <;> decide) rt settled

theorem storeBase_safe (rt : Num) {m : Mem} (settled : S → m.Settled) :
    (storeBase cfg rt m).Safe S (Item.Of target) :=
  accessGeneral_safe (by split <;> decide) rt settled

theorem vectorSource_safe {o : Operand} (settled : S → o.Settled) :
    (vectorSource cfg o).Safe S (Item.Of target) := by
  cases o with
  | reg r => exact .lift _
  | mem m => exact (accessVector_safe _ _ settled).bind fun _ _ => .pure _
  | imm i => exact .fail _

theorem baseSource_safe {o : Operand} (settled : S → o.Settled) :
    (baseSource cfg o).Safe S (Item.Of target) := by
  cases o with
  | reg r => exact .lift _
  | imm i => exact (insns_safe (loadImmediate_other _ _)).bind fun _ _ => .pure _
  | mem m => exact (loadBase_safe _ settled).bind fun _ _ => .pure _

/-! ## Selections -/

theorem selectMove_safe {dst src : Operand} (left : S → dst.Settled) (right : S → src.Settled) :
    (selectMove cfg dst src).Safe S (Item.Of target) := by
  cases dst with
  | reg d =>
    cases src with
    | reg s =>
      refine .check fun _ _ => .check fun _ _ => ?_
      split
      · exact .emitAll (List.forall_mem_nil _)
      · exact put_safe rfl
    | mem m => exact .check fun _ _ => accessVector_safe _ _ right
    | imm i => exact .check fun _ _ => .fail _
  | mem m =>
    cases src with
    | reg s => exact .check fun _ _ => accessVector_safe _ _ left
    | _ => exact .fail _
  | imm i => cases src <;> exact .fail _

theorem selectLogic_safe (op : Op) (dst s1 : Reg) {s2 : Operand} (settled : S → s2.Settled) :
    (selectLogic cfg op dst s1 s2).Safe S (Item.Of target) := by
  refine .check fun _ _ => .check fun _ _ => (vectorSource_safe settled).bind fun _ _ => ?_
  split <;> first | exact put_safe rfl | exact .fail _

theorem selectThree_safe (op : Op) (e : Elem) (dst s1 : Reg) {s2 : Operand}
    (settled : S → s2.Settled) : (selectThree cfg op e dst s1 s2).Safe S (Item.Of target) := by
  refine .check fun _ _ => .check fun _ _ => ?_
  split
  · exact (vectorSource_safe settled).bind fun _ _ => put_safe (isBranch_insn ..)
  · exact .fail _

theorem selectShift_safe (op : Op) (e : Elem) (dst src : Reg) {count : Operand}
    (settled : S → count.Settled) : (selectShift cfg op e dst src count).Safe S (Item.Of target) := by
  refine .check fun _ _ => .check fun _ _ => ?_
  cases count with
  | imm i => exact put_safe rfl
  | mem m =>
    refine (accessVector_safe _ _ settled).bind fun _ _ => ?_
    exact (put_safe rfl).bind fun _ _ => put_safe (isBranch_insn ..)
  | reg r => exact .fail _

theorem selectMerge_safe (dst : Reg) {src : Operand} (mask : Reg) (settled : S → src.Settled) :
    (selectMerge cfg dst src mask).Safe S (Item.Of target) := by
  refine .check fun _ _ => .check fun _ _ => (vectorSource_safe settled).bind fun _ _ => ?_
  split
  · exact .emitAll (List.forall_mem_nil _)
  · exact put_safe rfl

theorem selectMoveBase_safe {dst src : Operand} (left : S → dst.Settled)
    (right : S → src.Settled) : (selectMoveBase cfg dst src).Safe S (Item.Of target) := by
  cases dst with
  | reg r =>
    refine .check fun _ _ => ?_
    cases src with
    | reg s =>
      refine .check fun _ _ => ?_
      split
      · exact .emitAll (List.forall_mem_nil _)
      · exact put_safe rfl
    | imm i => exact insns_safe (loadImmediate_other _ _)
    | mem m => exact loadBase_safe _ right
  | mem m =>
    cases src with
    | reg s => exact .check fun _ _ => storeBase_safe _ left
    | _ => exact .fail _
  | imm i => exact .fail _

theorem selectArithBase_safe (op : Op) (dst : Reg) {src : Operand} (settled : S → src.Settled) :
    (selectArithBase cfg op dst src).Safe S (Item.Of target) := by
  refine .check fun _ _ => ?_
  split
  · next iop value found =>
    refine put_safe (isBranch_imm ?_ _ _ _)
    cases src with
    | imm i => exact immediateForm?_other found
    | _ => cases found
  · refine (baseSource_safe settled).bind fun _ _ => ?_
    split
    · exact put_safe rfl
    · exact .fail _

theorem selectShiftBase_safe (op : Op) (signed : Bool) (dst : Reg) (count : Imm) :
    (selectShiftBase cfg op signed dst count).Safe S (Item.Of target) := by
  refine .check fun _ _ => ?_
  dsimp only
  split
  · exact put_safe rfl
  · split
    · exact put_safe rfl
    · exact put_safe rfl
  · exact .fail _

theorem selectCompareJump_safe (c : Cond) (x : Reg) {y : Operand} (settled : S → y.Settled)
    (l : LabelRef) : (selectCompareJump cfg c x y l).Safe S (Item.Of (some l)) := by
  refine .check fun _ _ => (baseSource_safe settled).bind fun _ _ => ?_
  dsimp only
  split
  · exact .emit ⟨rfl, rfl⟩
  · exact .emit ⟨rfl, rfl⟩
  · split
    · next o _ =>
      refine (put_safe (by split <;> rfl)).bind fun _ _ => .emit ⟨?_, rfl⟩
      split <;> rfl
    · exact .fail _

end

/-- What is selected for a primitive branches to its label alone, and does not trap on settled
operands: every base register that is looked up is there. -/
theorem select_safe (cfg : Config) (p : Primitive) :
    (select cfg p).Safe p.Settled (Item.Of p.target?) := by
  have first {o : Operand} {os : List Operand} (operands : p.operands = o :: os) (settled : p.Settled) :
      o.Settled := settled.1 o (operands ▸ List.mem_cons_self)
  have second {o o' : Operand} (operands : p.operands = [o, o']) (settled : p.Settled) :
      o'.Settled := settled.1 o' (operands ▸ List.mem_cons_of_mem o List.mem_cons_self)
  cases p with
  | move dst src => exact selectMove_safe (first rfl) (second rfl)
  | logic op dst s1 s2 => exact selectLogic_safe op dst s1 (first rfl)
  | not dst src => exact .check fun _ _ => .check fun _ _ => put_safe rfl
  | arith op e dst s1 s2 => exact selectThree_safe op e dst s1 (first rfl)
  | shift op e dst src count => exact selectShift_safe op e dst src (first rfl)
  | shiftEach op e dst src counts => exact selectThree_safe op e dst src (first rfl)
  | compare c e dst s1 s2 =>
    dsimp only [select, selectCompare]
    split
    · exact selectThree_safe c e dst s1 (first rfl)
    · exact .fail _
  | merge dst src mask => exact selectMerge_safe dst mask (first rfl)
  | maskJump src cond target =>
    refine .check fun _ _ => (put_safe rfl).bind fun _ _ => .emit ⟨rfl, rfl⟩
  | moveBase dst src => exact selectMoveBase_safe (first rfl) (second rfl)
  | arithBase op dst src => exact selectArithBase_safe op dst (first rfl)
  | shiftBase op signed dst count => exact selectShiftBase_safe op signed dst count
  | compareJump c x y target => exact selectCompareJump_safe c x (first rfl) target
  | jump target => exact .emit ⟨rfl, rfl⟩
  | bind l => exact .emitAll (List.forall_mem_nil _)

theorem steady (cfg : Config) : (backend cfg).Steady := by
  intro p settled s
  show (issue cfg p s).1 ≠ _
  unfold issue
  split
  · split
    · exact nofun
    · exact nofun
  · exact (select_safe cfg _).outcome settled

theorem eq_of_backend? {cfg : Config} {b : Backend Buffer} (found : backend? cfg = .ok b) :
    b = backend cfg := by
  unfold backend? at found
  split at found
  · cases found
  split at found
  · cases found
  · exact (Except.ok.inj found).symm

end LaneAsm.Msa
