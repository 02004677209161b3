import LaneAsm.Proofs.Shape
import LaneAsm.Proofs.Supported
import LaneAsm.Proofs.X86.Decoding
import LaneAsm.Proofs.X86.Select

/-!
Shift counts in x86 code. `heldCount?` reads a count from the bytes of an instruction, wherever a
shift can have one: behind a shift by an immediate, or in the move that loads the count register. The
instructions of a shift by an immediate hold its count and no other (`holds_shift`), whether the shift
is encoded as it stands, in halves or lane by lane.
-/
namespace LaneAsm

/-- An immediate modulo a lane width, of which only 64 bits are kept. -/
theorem toNat_ofInt_mod {bits : Nat} (width : bits = 8 ∨ bits = 16 ∨ bits = 32 ∨ bits = 64) (x : Int) :
    (UInt64.ofInt x).toNat % bits = (x % bits).toNat := by
  have word := toNat_ofInt x
  rcases width with rfl | rfl | rfl | rfl <;> omega

namespace X86

open Emission

/-! ## Counts in bytes -/

/-- The forms with a shift count behind them: shifts of vectors by lane width, and the shift of a
general register. -/
def Form.counted (f : Form) : Bool :=
  f == .p66 0x71 || f == .p66 0x72 || f == .p66 0x73 || f == .one 0xC1 f.wide

/-- The shift count in the bytes of an instruction: the word that is moved to the count register, or
the byte behind a shift. -/
def heldCount? (bytes : List UInt8) : Option Nat :=
  if bytes.head? = some 0xB9 then some (wordOf bytes.tail).toNat
  else (decode? bytes).bind fun d => if d.form.counted then d.rest.head?.map UInt8.toNat else none

/-- The shift counts in the code of a primitive. -/
def heldCounts (cfg : Config) (p : Primitive) : List Nat :=
  (select cfg p).items.filterMap fun i => heldCount? (i.bytes cfg.shortAddress)

/-- A primitive is encoded, and its code holds one shift count. -/
def HoldsCount (cfg : Config) (p : Primitive) (n : Nat) : Prop :=
  (select cfg p).outcome = .ok () ∧ ∃ k, heldCounts cfg p = List.replicate (k + 1) n

theorem addressable_reg (r : RegNum) : (Rm.reg r).Addressable := trivial

section
variable {f : Form} {x : Rm} (r : RegNum) (short : Bool) (imm : List UInt8)

theorem heldCount?_legacy (legacy : f.Legacy) (other : f.opcode ≠ 0xB9) (addressable : x.Addressable) :
    heldCount? ((Insn.legacy f r x imm).bytes short) =
      if f.counted then imm.head?.map UInt8.toNat else none := by
  have first : ((Insn.legacy f r x imm).bytes short).head? ≠ some 0xB9 := by
    have extensions (w r x b : Bool) : rex w r x b ≠ 0xB9 := by decide +revert
    obtain ⟨pre, map, opcode, wide⟩ := f
    replace other : opcode ≠ 0xB9 := other
    by_cases extended : (wide || high r || x.extensions.1 || x.extensions.2) = true
    · simp only [Insn.bytes, if_pos extended]
      cases short && x.isMem <;> cases pre <;> simp [Mandatory.bytes, extensions]
    · simp only [Insn.bytes, if_neg extended]
      cases short && x.isMem <;> cases pre <;> cases map <;>
        simp [Mandatory.bytes, OpcodeMap.bytes, other]
  have read := decode?_legacy r short imm [] legacy addressable
  rw [List.append_nil, List.append_nil] at read
  rw [heldCount?, if_neg first, read]
  rfl

theorem heldCount?_vex (vector : f.Vector) (addressable : x.Addressable) (long : Bool) (v : RegNum) :
    heldCount? ((Insn.vex f long r v x imm).bytes short) =
      if f.counted then imm.head?.map UInt8.toNat else none := by
  have first : ((Insn.vex f long r v x imm).bytes short).head? ≠ some 0xB9 := by
    simp only [Insn.bytes, vexBytes]
    cases short && x.isMem
    · simp
      split <;> simp
    · simp
  have read := decode?_vex r short imm [] vector addressable long v
  rw [List.append_nil, List.append_nil] at read
  rw [heldCount?, if_neg first, read]
  rfl

end

theorem heldCount?_movImm (n : UInt32) (short : Bool) :
    heldCount? ((Insn.movImm rcx n).bytes short) = some n.toNat := by
  have word : (wordOf (word32 n)).toNat = n.toNat := by
    rw [word32, toNat_wordOf_littleEndian 4 _ (by decide), UInt32.toNat_toUInt64]
    exact Nat.mod_eq_of_lt n.toNat_lt
  exact congrArg some word

/-! ## Instructions without a count -/

section
variable {cfg : Config} {e : Elem} {m : Mem} {x : Rm} (short : Bool)

theorem heldCount?_op2 {f : Form} (listed : f ∈ Form.bitwise) (addressable : x.Addressable)
    (long : Bool) (dst : RegNum) : heldCount? ((op2 cfg f long dst x).bytes short) = none := by
  have all : ∀ f ∈ Form.bitwise, f.Vector ∧ f.opcode ≠ 0xB9 ∧ f.counted = false := by decide
  obtain ⟨vector, other, plain⟩ := all f listed
  unfold op2
  split
  · rw [heldCount?_vex _ _ _ vector addressable, plain]
    rfl
  · rw [heldCount?_legacy _ _ _ vector.1 other addressable, plain]
    rfl

theorem heldCount?_load (addressable : (Rm.mem m).Addressable) (long : Bool) (dst : RegNum) :
    heldCount? ((load cfg long dst m).bytes short) = none :=
  heldCount?_op2 short (by decide) addressable long dst

theorem heldCount?_store (addressable : (Rm.mem m).Addressable) (long : Bool) (src : RegNum) :
    heldCount? ((store cfg long m src).bytes short) = none :=
  heldCount?_op2 short (by decide) addressable long src

theorem heldCount?_general {f : Form} (listed : f.sized false ∈ Form.general)
    (addressable : x.Addressable) (r : RegNum) :
    heldCount? ((Insn.legacy f r x []).bytes short) = none := by
  have all : ∀ g ∈ Form.general, ∀ w, (g.sized w).Legacy ∧ (g.sized w).opcode ≠ 0xB9 ∧
      (g.sized w).counted = false := by decide
  obtain ⟨legacy, other, plain⟩ : f.Legacy ∧ f.opcode ≠ 0xB9 ∧ f.counted = false :=
    all _ listed f.wide
  rw [heldCount?_legacy _ _ _ legacy other addressable, plain]
  rfl

theorem heldCount?_loadLane (addressable : (Rm.mem m).Addressable) (r : RegNum) :
    heldCount? ((loadLane e r m).bytes short) = none := by
  refine heldCount?_general short ?_ addressable r
  repeat' split
  all_goals first | decide | exact (by decide : Form.one 0x8B false ∈ Form.general)

theorem heldCount?_storeLane (addressable : (Rm.mem m).Addressable) (r : RegNum) :
    heldCount? ((storeLane e m r).bytes short) = none := by
  refine heldCount?_general short ?_ addressable r
  repeat' split
  all_goals first | decide | exact (by decide : Form.one 0x89 false ∈ Form.general)

theorem heldCount?_shiftLane (op : Op) : heldCount? ((shiftLane op e).bytes short) = none := by
  have plain (w : Bool) : (Form.one 0xD3 w).Legacy ∧ (Form.one 0xD3 w).counted = false := by
    cases w <;> decide
  obtain ⟨legacy, uncounted⟩ := plain (e.bits == 64)
  have other : (0xD3 : UInt8) ≠ 0xB9 := by decide
  rw [shiftLane, heldCount?_legacy _ _ _ legacy other (addressable_reg rax), uncounted]
  rfl

end

/-! ## Sequences -/

/-- The shift counts in the bytes of instructions. -/
def counts (short : Bool) (is : List Insn) : List Nat := is.filterMap fun i => heldCount? (i.bytes short)

section
variable (short : Bool) {i : Insn} {is js : List Insn}

theorem counts_cons_none (none : heldCount? (i.bytes short) = none) :
    counts short (i :: is) = counts short is := List.filterMap_cons_none none

theorem counts_cons_some {n : Nat} (held : heldCount? (i.bytes short) = some n) :
    counts short (i :: is) = n :: counts short is := List.filterMap_cons_some held

theorem counts_append : counts short (is ++ js) = counts short is ++ counts short js :=
  List.filterMap_append

/-- Groups that hold the same counts. -/
theorem counts_groups {group : Nat → List Insn} {ns : List Nat} {k : Nat}
    (each : ∀ i < k, counts short (group i) = ns) :
    counts short ((List.range k).flatMap group) = (List.replicate k ns).flatten := by
  induction k with
  | zero => rfl
  | succ k ih =>
    rw [List.range_succ, List.flatMap_append, counts_append, ih fun i below => each i (by omega),
      List.flatMap_singleton, each k (by omega), List.replicate_succ', List.flatten_append,
      List.flatten_singleton]

end

theorem heldCount?_shiftGroup (bits : Nat) (short long : Bool) (r v src : RegNum) (n : UInt8) :
    heldCount? ((Insn.vex (.shiftGroup bits) long r v (.reg src) [n]).bytes short) = some n.toNat ∧
      heldCount? ((Insn.legacy (.shiftGroup bits) r (.reg src) [n]).bytes short) = some n.toNat := by
  have vector := vector_shiftGroup bits
  obtain ⟨counted, other⟩ :
      (Form.shiftGroup bits).counted = true ∧ (Form.shiftGroup bits).opcode ≠ 0xB9 := by
    unfold Form.shiftGroup
    repeat' split
    all_goals decide
  rw [heldCount?_vex _ _ _ vector (addressable_reg src),
    heldCount?_legacy _ _ _ vector.1 other (addressable_reg src), counted]
  exact ⟨rfl, rfl⟩

section
variable {cfg : Config} {op : Op} {e : Elem} {p : Plan} (short : Bool) (dst src : RegNum) (n : UInt8)

theorem counts_shiftImm : counts short (shiftImm cfg op e dst src n) = [n.toNat] := by
  obtain ⟨vex, legacy⟩ := heldCount?_shiftGroup e.bits short (wide cfg) (shiftDigit op e) dst src n
  unfold shiftImm
  dsimp only
  split
  · exact counts_cons_some short vex
  · have moved : counts short (copy cfg false dst src) = [] := by
      unfold copy
      split
      · rfl
      · exact counts_cons_none short (heldCount?_op2 short (by decide) (addressable_reg src) _ _)
    obtain ⟨-, legacy⟩ := heldCount?_shiftGroup e.bits short false (shiftDigit op e) 0 dst n
    rw [counts_append, moved]
    exact counts_cons_some short legacy

/-! ## Expansions -/

/-- Inside the scratch area every address can be encoded. -/
theorem Expandable.addressable (ok : Expandable cfg) {disp : Int} (least : 0 ≤ disp)
    (inside : disp < cfg.scratchOffset + cfg.physBytes) :
    (Rm.mem (.plain (.base cfg.scratchBase) ⟨disp, .dv⟩)).Addressable := by
  have window := ok.window
  refine ⟨ok.base, ?_, least, ?_⟩
  · intro i member
    cases member
  · show disp ≤ 0x7FFFFFFF
    omega

theorem Expandable.slot_addressable (ok : Expandable cfg) : (Rm.mem cfg.slots.a).Addressable := by
  have width := ok.width
  exact ok.addressable ok.window.1 (by omega)

theorem Expandable.advance_addressable (ok : Expandable cfg) {k : Nat} (inside : k < cfg.physBytes) :
    (Rm.mem (cfg.slots.a.advance k)).Addressable := by
  have window := ok.window
  have later : wrap64 (cfg.scratchOffset + k) = cfg.scratchOffset + k := by
    rw [wrap64, Int.bmod_def]
    omega
  refine ok.addressable ?_ ?_
  · show 0 ≤ wrap64 (cfg.scratchOffset + k)
    omega
  · show wrap64 (cfg.scratchOffset + k) < cfg.scratchOffset + cfg.physBytes
    omega

theorem each_emitAll {α : Type} (g : α → List Insn) (as : List α) :
    Emission.each (fun a => .emitAll (g a)) as = .emitAll (as.flatMap g) := by
  induction as with
  | nil => rfl
  | cons a as ih =>
    show (Emission.emitAll (g a) >>= fun _ => Emission.each (fun a => .emitAll (g a)) as) = _
    rw [ih, List.flatMap_cons]
    rfl

/-- The groups of a plan, with instructions for each. -/
theorem eachGroup_emitAll (unit : StepUnit) {size g : Nat} (planned : unit ≠ .none) (pos : 0 < g)
    (whole : g ∣ size) (small : size ≤ 32) (is : Int → List Insn) :
    eachGroup ⟨unit, size, g⟩ (fun offset => .emitAll (is offset)) =
      .emitAll ((List.range (size / g)).flatMap fun i => is (i * g : Nat)) := by
  unfold eachGroup
  rw [groups_eq pos whole small planned]
  refine (each_emitAll (fun group : Nat × Int => is group.2) _).trans ?_
  rw [List.flatMap_map]
  simp only [Int.natCast_mul]

/-- A shift in halves holds its count in each of them. -/
theorem expandShift_vector (ok : Expandable cfg) :
    ∃ is, expandShift cfg ⟨.vector, cfg.physBytes, 16⟩ op e dst src (.imm n) = .emitAll is ∧
      ∃ k, counts short is = List.replicate (k + 1) n.toNat := by
  obtain ⟨whole, several⟩ : 16 ∣ cfg.physBytes ∧ 0 < cfg.physBytes / 16 := by
    rcases ok.width with width | ⟨width, -⟩ <;> rw [width] <;> decide
  let shift : Insn := .vex (.shiftGroup e.bits) false (shiftDigit op e) tmp (.reg tmp) [n]
  let group (offset : Int) : List Insn :=
    let a := cfg.slots.a.advance offset
    [load cfg false tmp a, shift, store cfg false a tmp]
  have groups := eachGroup_emitAll .vector (by decide) (by decide) whole ok.physBytes_le group
  have held : ∀ i < cfg.physBytes / 16, counts short (group (i * 16 : Nat)) = [n.toNat] := by
    intro i below
    have address := ok.advance_addressable (show i * 16 < cfg.physBytes by omega)
    exact (counts_cons_none short (heldCount?_load short address _ _)).trans
      ((counts_cons_some short (heldCount?_shiftGroup ..).1).trans
        (congrArg _ (counts_cons_none short (heldCount?_store short address _ _))))
  refine ⟨store cfg (wide cfg) cfg.slots.a src ::
    ((List.range (cfg.physBytes / 16)).flatMap (fun i => group (i * 16 : Nat)) ++
      [load cfg (wide cfg) dst cfg.slots.a]), ?_, cfg.physBytes / 16 - 1, ?_⟩
  · show (Emission.emit _ >>= fun _ => Emission.emitAll [] >>= fun _ =>
      eachGroup _ (fun offset => .emitAll (group offset)) >>= fun _ => Emission.emit _) = _
    rw [show (16 : Int) = (16 : Nat) from rfl, groups]
    rfl
  · have here := ok.slot_addressable
    rw [counts_cons_none short (heldCount?_store short here _ _), counts_append,
      counts_groups short held, List.flatten_replicate_singleton,
      counts_cons_none short (heldCount?_load short here _ _), Nat.sub_add_cancel several]
    exact List.append_nil _

/-- A shift lane by lane holds its count once, in front of the lanes. -/
theorem expandShift_scalar (ok : Expandable cfg) (valid : e.valid = true) :
    ∃ is, expandShift cfg ⟨.scalar, cfg.physBytes, e.bytes⟩ op e dst src (.imm n) = .emitAll is ∧
      ∃ k, counts short is = List.replicate (k + 1) n.toNat := by
  have whole := bytes_dvd_physBytes ok valid
  let group (offset : Int) : List Insn :=
    let a := cfg.slots.a.advance offset
    [loadLane e rax a, shiftLane op e, storeLane e a rax]
  have groups := eachGroup_emitAll .scalar (by decide) (Elem.bytes_pos valid) whole
    ok.physBytes_le group
  have free : ∀ i < cfg.physBytes / e.bytes, counts short (group (i * e.bytes : Nat)) = [] := by
    intro i below
    have inside : i * e.bytes < cfg.physBytes := by
      have last := Nat.mul_lt_mul_of_pos_right below (Elem.bytes_pos valid)
      rwa [Nat.div_mul_cancel whole] at last
    have address := ok.advance_addressable inside
    exact (counts_cons_none short (heldCount?_loadLane short address _)).trans
      ((counts_cons_none short (heldCount?_shiftLane short _)).trans
        (counts_cons_none short (heldCount?_storeLane short address _)))
  refine ⟨store cfg (wide cfg) cfg.slots.a src :: ([.push rax, .push rcx] ++ (.movImm rcx n.toUInt32 ::
    (List.range (cfg.physBytes / e.bytes)).flatMap (fun i => group (i * e.bytes : Nat)) ++
      [.pop rcx, .pop rax]) ++ [load cfg (wide cfg) dst cfg.slots.a]), ?_, 0, ?_⟩
  · show (Emission.emit _ >>= fun _ => aroundScalar (Emission.emitAll _ >>= fun _ =>
      eachGroup _ (fun offset => .emitAll (group offset))) >>= fun _ => Emission.emit _) = _
    rw [groups]
    rfl
  · have here := ok.slot_addressable
    have saved : counts short [.push rax, .push rcx] = [] := rfl
    have restored : counts short [.pop rcx, .pop rax] = [] := rfl
    rw [counts_cons_none short (heldCount?_store short here _ _), counts_append, counts_append,
      counts_append, saved, restored, counts_cons_some short (heldCount?_movImm _ short),
      counts_groups short free, List.flatten_replicate_nil,
      counts_cons_none short (heldCount?_load short here _ _)]
    rfl

end

/-! ## Shifts -/

/-- A selection that is known, and whose instructions hold one count. -/
theorem HoldsCount.of_select {cfg : Config} {p : Primitive} {is : List Insn} {n : Nat}
    (selected : select cfg p = .emitAll is)
    (held : ∃ k, counts cfg.shortAddress is = List.replicate (k + 1) n) : HoldsCount cfg p n := by
  rw [HoldsCount, heldCounts, selected]
  exact ⟨rfl, held⟩

theorem check_bind {α : Type} {x : Except Error α} {a : α} (passed : x = .ok a)
    (rest : α → Selection Unit) : (Emission.check x >>= rest) = rest a := by
  rw [passed]
  rfl

/-- The code of a shift by an immediate holds the immediate modulo the lane width. -/
theorem holds_shift {cfg : Config} (ok : Expandable cfg) {op : Op} (shift : op = .shl ∨ op = .shr)
    {e : Elem} (valid : e.valid = true) (whole : e.isFloat = false) {dst src : Reg}
    (into : dst.InFile 16) (source : src.InFile 16) (c : Imm) :
    HoldsCount cfg (.shift op e dst src (.imm c)) (c.value % e.bits).toNat := by
  obtain ⟨d, first⟩ := vectorNum_ok into
  obtain ⟨s, second⟩ := vectorNum_ok source
  have can : scalarOp op e = true := by rcases shift with rfl | rfl <;> simp [scalarOp, whole]
  obtain ⟨p, found⟩ : ∃ p, planOf? cfg op e = some p := exists_plan_of_scalarOp can
  have count : (UInt8.ofInt c.value &&& countMask e).toNat = (c.value % e.bits).toNat :=
    (toNat_maskedCount valid c.value).trans (toNat_ofInt_mod (Elem.bits_of_valid valid) c.value)
  have selected : select cfg (.shift op e dst src (.imm c)) =
      if p.unit = .none then
        .emitAll (shiftImm cfg op e d s (UInt8.ofInt c.value &&& countMask e))
      else expandShift cfg p op e d s (.imm (UInt8.ofInt c.value &&& countMask e)) :=
    (check_bind first _).trans ((check_bind second _).trans (check_bind (planOf_eq_ok.2 found) _))
  rw [← count]
  rcases planOf?_cases found with none | rfl | ⟨rfl, -⟩
  · rw [if_pos none] at selected
    exact .of_select selected ⟨0, counts_shiftImm _ d s _⟩
  · obtain ⟨is, expanded, held⟩ := expandShift_vector cfg.shortAddress d s
      (UInt8.ofInt c.value &&& countMask e) ok
    exact .of_select (selected.trans expanded) held
  · obtain ⟨is, expanded, held⟩ := expandShift_scalar cfg.shortAddress d s
      (UInt8.ofInt c.value &&& countMask e) ok valid
    exact .of_select (selected.trans expanded) held

/-- The code of a shift of a base register holds the immediate modulo the width of base registers. -/
theorem holds_shiftBase {cfg : Config} (based : Machine.Based cfg) {op : Op}
    (shift : op = .shl ∨ op = .shr) (signed : Bool) {dst : Reg} (into : dst.InBase) (c : Imm) :
    HoldsCount cfg (.shiftBase op signed dst c) (c.value % cfg.baseBits).toNat := by
  obtain ⟨d, found⟩ : ∃ d, baseNum dst = .ok d := ⟨_, dif_pos into⟩
  let n := UInt8.ofInt c.value &&& UInt8.ofInt ((cfg.baseBits : Int) - 1)
  let insn (digit : RegNum) : Insn := .legacy (.one 0xC1 (base64 cfg)) digit (.reg d) [n]
  have count : n.toNat = (c.value % cfg.baseBits).toNat := by
    have valid := Machine.valid_base based .unsigned
    exact (toNat_maskedCount valid c.value).trans
      (toNat_ofInt_mod (Elem.bits_of_valid valid) c.value)
  have held (digit : RegNum) : counts cfg.shortAddress [insn digit] = [n.toNat] := by
    have form (w : Bool) : (Form.one 0xC1 w).Legacy ∧ (Form.one 0xC1 w).counted = true := by
      cases w <;> decide
    obtain ⟨legacy, counted⟩ := form (base64 cfg)
    have other : (0xC1 : UInt8) ≠ 0xB9 := by decide
    refine counts_cons_some _ ?_
    rw [heldCount?_legacy _ _ _ legacy other (addressable_reg d), counted]
    rfl
  rw [← count]
  rcases shift with rfl | rfl
  · exact .of_select (check_bind found _) ⟨0, held 4⟩
  · exact .of_select (check_bind found _) ⟨0, held (if signed then 7 else 5)⟩

end X86

end LaneAsm
