import LaneAsm.Catalog.BuiltIn
import LaneAsm.Proofs.X86.Chosen
import LaneAsm.Proofs.X86.Decoding
import LaneAsm.Proofs.X86.Emitted

/-!
Instructions stay within the level of their target. What each instruction rests on is known from
`Chosen`; what a level lacks follows for the instructions of any calls. Shifts are asked for by name:
a request to shift that names another operation is encoded all the same, above its level if need be.
-/
namespace LaneAsm

/-- Every primitive that a call asks the backend for has a property. -/
def Call.Asks (cap : Capability) (P : Primitive → Prop) : Call → Prop
  | .request p => P p
  | .instr i => ∀ p ∈ (cap.lower i).items, P p
  | _ => True

namespace X86

namespace Form

/-- Shifts with a count for each lane. -/
def perLane (f : Form) : Bool :=
  f.map == .m0F38 && (f.opcode == 0x45 || f.opcode == 0x46 || f.opcode == 0x47)

/-- The forms on vectors of 32 bytes that come before the integer ones. -/
def floats : List Form :=
  [movupsLoad, movupsStore, movaps, andps, andnps, orps, xorps, vextractf128]
    ++ ([0x58, 0x59, 0x5C, 0x5D, 0x5E, 0x5F, 0xC2] : List UInt8).flatMap fun o => [m0F o, p66 o]

/-- A form in one of the maps with three opcode bytes. -/
def late (f : Form) : Bool := f.map == .m0F38 || f.map == .m0F3A

end Form

/-! ## Forms -/

/-- What the level of a form says about it: the later maps and the shifts for each lane are not there
at once, and float forms are wide before the others. -/
theorem level_of_nativeForm? {op : Op} {e : Elem} {f : Form} {level : Level}
    (found : nativeForm? op e = some (f, level)) :
    (f.late = true → Level.sse4 ≤ level) ∧ (f.perLane = true → Level.avx2 ≤ level) ∧
      (e.isFloat = true → f ∈ Form.floats) :=
  of_nativeForm? (P := fun _ float f level => (f.late = true → Level.sse4 ≤ level) ∧
    (f.perLane = true → Level.avx2 ≤ level) ∧ (float = true → f ∈ Form.floats))
    (by decide +kernel) found

theorem shiftGroup_early (bits : Nat) :
    (Form.shiftGroup bits).late = false ∧ (Form.shiftGroup bits).perLane = false := by
  unfold Form.shiftGroup
  repeat' split
  all_goals decide

section
variable {cfg : Config} {p : Primitive} {f : Form} {long : Bool} {r : RegNum} {imm : List UInt8}

/-- A suited form is there at every level, or with an operation whose level is reached. -/
theorem Suited.early_or_native (suited : Suited cfg p f long r imm) :
    f.late = false ∧ f.perLane = false ∨
      ∃ op e level, nativeForm? op e = some (f, level) ∧ level ≤ cfg.level := by
  have early : ∀ g ∈ Form.bitwise ++ Form.auxiliary, g.late = false ∧ g.perLane = false := by decide
  cases suited with
  | bitwise listed => exact .inl (early f (List.mem_append_left _ listed))
  | auxiliary listed => exact .inl (early f (List.mem_append_right _ listed))
  | native form reached => exact .inr ⟨_, _, _, form, reached⟩
  | group => exact .inl (shiftGroup_early _)

theorem Suited.late (suited : Suited cfg p f long r imm) (later : f.late = true) :
    Level.sse4 ≤ cfg.level := by
  rcases suited.early_or_native with ⟨early, -⟩ | ⟨op, e, level, form, reached⟩
  · rw [early] at later
    cases later
  · exact Nat.le_trans ((level_of_nativeForm? form).1 later) reached

theorem Suited.perLane (suited : Suited cfg p f long r imm) (each : f.perLane = true) :
    Level.avx2 ≤ cfg.level := by
  rcases suited.early_or_native with ⟨-, other⟩ | ⟨op, e, level, form, reached⟩
  · rw [other] at each
    cases each
  · exact Nat.le_trans ((level_of_nativeForm? form).2.1 each) reached

/-- At full length a form is one of the float forms or there with the integer ones. -/
theorem Suited.wide (suited : Suited cfg p f long r imm) (shifts : p.Shifts) (full : long = true) :
    f ∈ Form.floats ∨ Level.avx2 ≤ cfg.level := by
  cases suited with
  | bitwise listed =>
    have floats : ∀ g ∈ Form.bitwise, g ∈ Form.floats := by decide
    exact .inl (floats f listed)
  | auxiliary _ _ wide => exact .inr (wide shifts full)
  | native form _ _ wide => exact (wide full).imp_left (level_of_nativeForm? form).2.2
  | group _ _ wide => exact .inr (wide shifts full)

theorem general_early (listed : f.sized false ∈ Form.general) : f.late = false ∧ f.perLane = false := by
  have early : ∀ g ∈ Form.general, g.late = false ∧ g.perLane = false := by decide
  exact early (f.sized false) listed

theorem grouped_early {n : Nat} (listed : (f.sized false, r, n) ∈ Form.grouped) :
    f.late = false ∧ f.perLane = false := by
  have early : ∀ g ∈ Form.grouped, g.1.late = false ∧ g.1.perLane = false := by decide
  exact early (f.sized false, r, n) listed

end

/-! ## Instructions -/

section
variable {cfg : Config} {p : Primitive} {i : Insn}

theorem level_of_blends (blends : blends cfg = true) : Level.sse4 ≤ cfg.level := by
  unfold X86.blends at blends
  split at blends
  · exact Nat.le_trans (by decide) (of_decide_eq_true blends)
  · exact of_decide_eq_true blends

theorem Fitting.level_of_floatOnly (fitting : Fitting cfg) (float : floatOnly cfg = true) :
    Level.avx1 ≤ cfg.level := vexed_eq_true.1 (fitting.vexed_of_floatOnly float)

/-- An instruction of a later map is there from its level on. -/
theorem Chosen.late (chosen : Chosen cfg p i) (fitting : Fitting cfg) {inVex : Bool} {f : Form}
    (form : i.form? = some (inVex, f)) (later : f.late = true) : Level.sse4 ≤ cfg.level := by
  cases chosen with
  | vex v x suited has =>
    cases form
    exact suited.late later
  | legacy x suited lacks =>
    cases form
    exact suited.late later
  | upper r v x float => exact Nat.le_trans (by decide) (fitting.level_of_floatOnly float)
  | blend r v x n full has blends => exact level_of_blends blends
  | blendFirst r x lacks blends => exact level_of_blends blends
  | general listed r x =>
    cases form
    rw [(general_early listed).1] at later
    cases later
  | grouped listed x =>
    cases form
    rw [(grouped_early listed).1] at later
    cases later
  | ones | blank =>
    cases form
    cases later
  | _ => cases form

/-- A shift with a count for each lane is there from its level on. -/
theorem Chosen.perLane (chosen : Chosen cfg p i) {inVex : Bool} {f : Form}
    (form : i.form? = some (inVex, f)) (each : f.perLane = true) : Level.avx2 ≤ cfg.level := by
  cases chosen with
  | vex v x suited has =>
    cases form
    exact suited.perLane each
  | legacy x suited lacks =>
    cases form
    exact suited.perLane each
  | general listed r x =>
    cases form
    rw [(general_early listed).2] at each
    cases each
  | grouped listed x =>
    cases form
    rw [(grouped_early listed).2] at each
    cases each
  | ones | upper | blend | blendFirst | blank =>
    cases form
    cases each
  | _ => cases form

/-- VEX is there from its level on, where shifts for each lane name a shift. -/
theorem Chosen.inVex (chosen : Chosen cfg p i) (fitting : Fitting cfg) (regular : p.Regular) {f : Form}
    (form : i.form? = some (true, f)) : Level.avx1 ≤ cfg.level := by
  cases chosen with
  | vex v x suited has => exact vexed_eq_true.1 (has fitting regular)
  | ones r v x float => exact fitting.level_of_floatOnly float
  | upper r v x float => exact fitting.level_of_floatOnly float
  | blend r v x n full has blends => exact vexed_eq_true.1 has
  | blank r v x irregular => exact absurd regular irregular
  | _ => cases form

/-- Wide integer instructions are there from their level on, where shifts name a shift. -/
theorem Chosen.wide {f : Form} {r v : RegNum} {x : Rm} {imm : List UInt8}
    (chosen : Chosen cfg p (.vex f true r v x imm)) (shifts : p.Shifts) :
    f ∈ Form.floats ∨ Level.avx2 ≤ cfg.level := by
  cases chosen with
  | vex v x suited has => exact suited.wide shifts rfl
  | ones => exact .inl (by decide)
  | upper => exact .inl (by decide)
  | blend r v x n full has blends =>
    rw [X86.blends, if_pos full.symm] at blends
    exact .inr (of_decide_eq_true blends)

end

/-! ## Calls -/

section
variable {cfg : Config} {P : Primitive → Prop}

theorem exists_chosen_of_issued {ps : List Primitive} (all : ∀ p ∈ ps, P p) (s : Buffer) :
    ∀ i ∈ issued cfg ps s, ∃ p, P p ∧ Chosen cfg p i := by
  induction ps generalizing s with
  | nil => exact List.forall_mem_nil _
  | cons p ps ih =>
    obtain ⟨here, rest⟩ := List.forall_mem_cons.1 all
    rw [issued]
    refine List.forall_mem_append.2 ⟨fun i member => ⟨p, here, (select_chosen cfg p).items i member⟩, ?_⟩
    split
    · exact ih rest _
    · exact List.forall_mem_nil _

/-- An instruction that a call emits is selected for a primitive that the call asks for. -/
theorem exists_chosen_of_insns {c : Call} (asks : c.Asks (capability cfg) P) (a : Assembler Buffer) :
    ∀ i ∈ insns cfg a c, ∃ p, P p ∧ Chosen cfg p i := by
  cases c with
  | request p => exact fun i member => ⟨p, asks, (select_chosen cfg p).items i member⟩
  | instr i =>
    rw [insns]
    split
    · exact exists_chosen_of_issued asks _
    · exact List.forall_mem_nil _
  | _ => exact List.forall_mem_nil _

theorem exists_chosen_of_insnsAll {calls : List Call}
    (asks : ∀ c ∈ calls, c.Asks (capability cfg) P) (a : Assembler Buffer) :
    ∀ i ∈ insnsAll cfg a calls, ∃ p, P p ∧ Chosen cfg p i := by
  induction calls generalizing a with
  | nil => exact List.forall_mem_nil _
  | cons c cs ih =>
    obtain ⟨here, rest⟩ := List.forall_mem_cons.1 asks
    exact List.forall_mem_append.2 ⟨exists_chosen_of_insns here a, ih rest _⟩

theorem Call.asks_trivial (cap : Capability) (c : Call) : c.Asks cap fun _ => True := by
  cases c with
  | instr i => exact fun _ _ => trivial
  | _ => trivial

end

/-- The instructions of any calls stay within the level of the target, and spell the code that the
calls leave. Below the second level no instruction is in a map with three opcode bytes, and below the
last none shifts each lane by a count of its own. Where shifts for each lane name a shift there is no
VEX below its level; where all shifts do, the instructions on 32 bytes are float ones before the last
level. -/
theorem levels_respected (cfg : Config) (fitting : Fitting cfg) (calls : List Call) :
    Spells cfg.shortAddress (emitted cfg calls) (Branching.x86.after cfg calls).code.toList ∧
    (cfg.level < Level.sse4 → ∀ i ∈ emitted cfg calls, ∀ inVex f, i.form? = some (inVex, f) →
      f.map ≠ .m0F38 ∧ f.map ≠ .m0F3A) ∧
    (cfg.level < Level.avx2 → ∀ i ∈ emitted cfg calls, ∀ inVex f, i.form? = some (inVex, f) →
      ¬ (f.map = .m0F38 ∧ f.opcode ∈ ([0x45, 0x46, 0x47] : List UInt8))) ∧
    ((∀ c ∈ calls, c.Asks (capability cfg) Primitive.Regular) → cfg.level < Level.avx1 →
      ∀ i ∈ emitted cfg calls, ∀ f, i.form? ≠ some (true, f)) ∧
    ((∀ c ∈ calls, c.Asks (capability cfg) Primitive.Shifts) → cfg.level < Level.avx2 →
      ∀ f r v x imm, Insn.vex f true r v x imm ∈ emitted cfg calls → f ∈ Form.floats) := by
  have any : ∀ i ∈ emitted cfg calls, ∃ p, True ∧ Chosen cfg p i :=
    exists_chosen_of_insnsAll (P := fun _ => True) (fun c _ => Call.asks_trivial _ c) _
  refine ⟨(holds_after cfg calls).code, ?_, ?_, ?_, ?_⟩
  · intro below i member inVex f form
    obtain ⟨p, -, chosen⟩ := any i member
    have early : f.late = false :=
      Bool.eq_false_iff.2 fun later => Nat.not_le_of_lt below (chosen.late fitting form later)
    simpa [Form.late] using early
  · intro below i member inVex f form ⟨map, opcode⟩
    obtain ⟨p, -, chosen⟩ := any i member
    refine Nat.not_le_of_lt below (chosen.perLane form ?_)
    simpa [Form.perLane, map, or_assoc] using opcode
  · intro regular below i member f form
    obtain ⟨p, asked, chosen⟩ := exists_chosen_of_insnsAll regular _ i member
    exact Nat.not_le_of_lt below (chosen.inVex fitting asked form)
  · intro shifts below f r v x imm member
    obtain ⟨p, asked, chosen⟩ := exists_chosen_of_insnsAll shifts _ _ member
    exact (chosen.wide asked).resolve_right (Nat.not_le_of_lt below)

/-- Shifts and a sum of floats: lane by lane at the lowest level, and partly at full length where only
float instructions have it. -/
theorem levels_respected_shifts :
    let lowest := Config.x86 Level.sse2 "sse2" "128" 16 1
    let halfway := Config.x86 Level.avx1 "avx1" "256" 32 1
    let calls := [Call.request (.shiftEach .svl .u32 (.xmm 1) (.xmm 2) (.reg (.xmm 3))),
      .request (.shift .shr .s16 (.xmm 1) (.xmm 2) (.imm ⟨3, .ib⟩)),
      .request (.arith .add .f32 (.xmm 1) (.xmm 2) (.reg (.xmm 3)))]
    (emitted lowest calls ≠ [] ∧ ∀ i ∈ emitted lowest calls,
      (∀ f, i.form? ≠ some (true, f)) ∧
        ∀ inVex f, i.form? = some (inVex, f) → f.map ≠ .m0F38 ∧ f.map ≠ .m0F3A) ∧
    (∃ i ∈ emitted halfway calls, i = .vex (.m0F 0x58) true 1 2 (.reg 3) []) ∧
      (∀ i ∈ emitted halfway calls, ∀ inVex f, i.form? = some (inVex, f) →
        ¬ (f.map = .m0F38 ∧ f.opcode ∈ ([0x45, 0x46, 0x47] : List UInt8))) ∧
      ∀ f r v x imm, Insn.vex f true r v x imm ∈ emitted halfway calls → f ∈ Form.floats := by
  intro lowest halfway calls
  have shifts (cfg : Config) : ∀ c ∈ calls, c.Asks (capability cfg) Primitive.Shifts := by
    simp [calls, Call.Asks, Primitive.Shifts]
  have regular (cfg : Config) : ∀ c ∈ calls, c.Asks (capability cfg) Primitive.Regular := by
    simp [calls, Call.Asks, Primitive.Regular]
  obtain ⟨-, maps, -, vex, -⟩ := levels_respected lowest (by decide) calls
  obtain ⟨-, -, lanes, -, long⟩ := levels_respected halfway (by decide) calls
  refine ⟨⟨by decide +kernel, fun i member => ⟨?_, ?_⟩⟩, by decide +kernel, lanes (by decide), ?_⟩
  · exact vex (regular lowest) (by decide) i member
  · exact maps (by decide) i member
  · exact long (shifts halfway) (by decide)

/-- A request for a shift of each lane that names an addition is encoded in VEX at the lowest level. -/
theorem vex_below_its_level : ¬ ∀ cfg, Fitting cfg → ∀ calls, cfg.level < Level.avx1 →
    ∀ i ∈ emitted cfg calls, ∀ f, i.form? ≠ some (true, f) := by
  intro claimed
  have absent := claimed (.x86 Level.sse2 "sse2" "128" 16 1) (by decide)
    [.request (.shiftEach .add .u32 (.xmm 1) (.xmm 2) (.reg (.xmm 3)))] (by decide)
  have present : Insn.vex .pand false tmp tmp (.reg 3) [] ∈
      emitted (.x86 Level.sse2 "sse2" "128" 16 1)
        [.request (.shiftEach .add .u32 (.xmm 1) (.xmm 2) (.reg (.xmm 3)))] := by
    decide +kernel
  exact absent _ present .pand rfl

end X86

end LaneAsm
