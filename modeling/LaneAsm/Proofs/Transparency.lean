import LaneAsm.Proofs.Relowering
import LaneAsm.Proofs.Scalar

/-!
Limits do not show. A program recorded under limits has more steps and writes its temporary more
often than the one recorded without, and leaves everything but the temporary alike. Each block keeps
two machines equal apart from the temporary (`EqualApart.after_block`).
-/
namespace LaneAsm

/-! ## Sizes of results -/

/-- The value of an instruction has the size of what it reads. -/
theorem Instr.size_value? {L : Type} {r : Reader} {i : Instr L} {k : Nat} {v : Bytes}
    (sized : ∀ o ∈ i.sources, ∀ u, r.source o = some u → u.size = k) (value : i.value? r = some v) :
    v.size = k := by
  have binary {op : Op} {e : Elem} {s1 : Reg} {s2 : Operand}
      (first : ∀ u, r.source (.reg s1) = some u → u.size = k)
      (value : binary? r op e s1 s2 = some v) : v.size = k := by
    obtain ⟨x, left, value⟩ := Option.bind_eq_some_iff.1 value
    obtain ⟨y, _, value⟩ := Option.bind_eq_some_iff.1 value
    rw [Lanes.size_eval? value]
    exact first x left
  cases i with
  | mov dst src =>
    cases dst with
    | reg d => exact sized src (by simp [sources]) v value
    | _ => cases value
  | logic op d s1 s2 | arith op e d s1 s2 | shiftEach op e d s1 s2 | compare op e d s1 s2 =>
    exact binary (sized (.reg s1) (by simp [sources])) value
  | not d src =>
    obtain ⟨x, read, value⟩ := Option.bind_eq_some_iff.1 value
    rw [Lanes.size_eval? value]
    exact sized (.reg src) (by simp [sources]) x read
  | shift op e d src count =>
    obtain ⟨n, _, value⟩ := Option.bind_eq_some_iff.1 value
    obtain ⟨x, read, value⟩ := Option.bind_eq_some_iff.1 value
    rw [Lanes.size_shift? value]
    exact sized (.reg src) (by simp [sources]) x read
  | merge d src =>
    obtain ⟨s, _, value⟩ := Option.bind_eq_some_iff.1 value
    obtain ⟨x, read, value⟩ := Option.bind_eq_some_iff.1 value
    obtain ⟨m, _, value⟩ := Option.bind_eq_some_iff.1 value
    rw [Lanes.size_merge? value]
    exact sized (.reg d) (by simp [sources]) x read
  | _ => cases value

/-! ## Machines equal apart from the temporary -/

/-- A physical register that holds no half of the temporary. -/
def Config.Kept (cfg : Config) (k : Int) : Prop :=
  ∀ h < cfg.halves, k ≠ cfg.physical cfg.tempReg h

theorem Config.Separated.kept {cfg : Config} (separated : cfg.Separated) {r : Reg}
    (usable : cfg.Usable r) {h : Nat} (half : h < cfg.halves) : cfg.Kept (cfg.physical r.index h) :=
  fun _ other same => separated.temp_apart usable other half same.symm

/-- The registers that instructions name have the size of a physical register. -/
def Machine.Sized (cfg : Config) (m : Machine) : Prop :=
  ∀ r, cfg.Usable r → ∀ h < cfg.halves, ∀ v, m.vectorAt? (cfg.physical r.index h) = some v →
    v.size = cfg.physBytes

/-- Two machines that differ at most in the temporary. -/
structure EqualApart (cfg : Config) (m n : Machine) : Prop where
  bases : n.bases = m.bases
  memory : n.memory = m.memory
  vectors : ∀ k, cfg.Kept k → n.vectorAt? k = m.vectorAt? k

namespace Machine

variable {cfg : Config} {m : Machine}

theorem Sized.source (sized : m.Sized cfg) {o : Operand} (usable : cfg.UsableSource o) {h : Nat}
    (half : h < cfg.halves) {u : Bytes} (read : (m.reader cfg h).source o = some u) :
    u.size = cfg.physBytes := by
  refine size_of_source usable ?_ read
  rintro r rfl u present
  exact sized r usable h half u present

theorem Sized.write (sized : m.Sized cfg) {m' : Machine} {k : Int} {v : Bytes}
    (written : Writes m m' k v) (size : v.size = cfg.physBytes) : m'.Sized cfg := by
  intro r usable h half u read
  by_cases same : cfg.physical r.index h = k
  · rw [same, written.here] at read
    exact Option.some.inj read ▸ size
  · rw [written.others _ same] at read
    exact sized r usable h half u read

end Machine

namespace EqualApart

open Machine Capability

variable {cfg : Config} (separated : cfg.Separated) (whole : 8 ∣ cfg.physBytes) {limits : Limits}
  {m n : Machine} (equal : EqualApart cfg m n) (sized : m.Sized cfg)

section
variable {h : Nat} (half : h < cfg.halves)
include separated equal half

theorem source_eq {o : Operand} (usable : cfg.UsableSource o) :
    (n.reader cfg h).source o = (m.reader cfg h).source o :=
  source_congr equal.bases equal.memory
    (fun _ register => equal.vectors _ (separated.kept register half)) usable

theorem value_eq {i : Instr LabelRef} (usable : ∀ o ∈ i.sources, cfg.UsableSource o) :
    i.value? (n.reader cfg h) = i.value? (m.reader cfg h) := by
  refine Instr.value?_congr (fun o member => equal.source_eq separated half (usable o member)) ?_
  intro e o
  simp only [reader, countOf_congr equal.bases equal.memory]

include whole sized

/-- One half of an instruction that writes a vector register: without limits it writes the value of
the instruction, and under limits it leaves the same value and changes at most the temporary. -/
theorem after_half {i : Instr LabelRef} {d : Reg} (formed : i.Formed) (dest : i.dest? = some d)
    (accepted : (Program.backend cfg .none).toCapability.Accepts i)
    (accepted' : (Program.backend cfg limits).toCapability.Accepts i) {ps qs : List Primitive}
    (lowered : (Program.backend cfg .none).toCapability.lowerHalf h i = .ok ps)
    (lowered' : (Program.backend cfg limits).toCapability.lowerHalf h i = .ok qs)
    {m₁ : Machine} {j : LabelRef} (run : m.steps cfg ps = .ok (m₁, j)) :
    j = none ∧ ∃ n₁, n.steps cfg qs = .ok (n₁, none) ∧ EqualApart cfg m₁ n₁ ∧ m₁.Sized cfg := by
  have usable : ∀ o ∈ i.sources, cfg.UsableSource o := accepted.sources
  obtain ⟨still, v, value, written⟩ :=
    writes_half dest accepted (direct_of_complete formed accepted) lowered run
  have sizes : ∀ o ∈ i.sources, ∀ u, (m.reader cfg h).source o = some u → u.size = cfg.physBytes :=
    fun o member u read => sized.source (usable o member) half read
  obtain ⟨n₁, left⟩ := leaves_half separated half formed dest accepted' lowered'
    (fun o member u read => sizes o member u
      (equal.source_eq separated half (usable o member) ▸ read))
    whole ((equal.value_eq separated half usable).trans value)
  refine ⟨still, n₁, steps_of_run left.runs, ⟨?_, ?_, ?_⟩, ?_⟩
  · rw [written.bases, ← equal.bases]
    exact congrArg Prod.fst left.rest
  · rw [written.memory, ← equal.memory]
    exact congrArg Prod.snd left.rest
  · intro k kept
    by_cases here : k = cfg.physical d.index h
    · subst here
      exact left.here.trans written.here.symm
    · have others : n₁.vectorAt? k = n.vectorAt? k := left.others k here (kept h half)
      rw [others, written.others k here, equal.vectors k kept]
  · exact sized.write written (Instr.size_value? sizes value)

omit whole in
/-- One half of a store is the same primitive under any limits. -/
theorem after_half_store {x : Mem} {r : Reg} (usable : cfg.Usable r) {ps : List Primitive}
    (lowered : (Program.backend cfg limits).toCapability.lowerHalf h (.mov (.mem x) (.reg r)) = .ok ps)
    {m₁ : Machine} {j : LabelRef} (run : m.steps cfg ps = .ok (m₁, j)) :
    j = none ∧ ∃ n₁, n.steps cfg ps = .ok (n₁, none) ∧ EqualApart cfg m₁ n₁ ∧ m₁.Sized cfg := by
  obtain ⟨z, -, rfl⟩ := lowerHalf_store usable.1 lowered
  obtain ⟨still, done⟩ := effect_of_steps rfl run
  obtain ⟨v, read, done⟩ := bind_eq_ok.mp done
  obtain ⟨a, found, done⟩ := bind_eq_ok.mp done
  cases done
  have read' : n.vector (cfg.phys r h) = .ok v :=
    vector_eq_ok.mpr ((equal.vectors _ (separated.kept usable half)).trans (vector_eq_ok.mp read))
  have stored : n.store cfg z v = .ok { n with memory := n.memory.write a v.toList } :=
    bind_eq_ok.mpr ⟨a, (locate_congr equal.bases equal.memory cfg z v.size).trans found, rfl⟩
  refine ⟨still, _, steps_single.mpr ⟨bind_eq_ok.mpr ⟨v, read', stored⟩, rfl⟩, ?_, sized⟩
  exact ⟨equal.bases, by rw [equal.memory], equal.vectors⟩

end

/-- Where every half keeps the machines equal, all of them do. -/
theorem after_halves {w w' : Nat → List Primitive} {hs : List Nat} {m₁ : Machine} {j : LabelRef}
    (step : ∀ h ∈ hs, ∀ {m n m₁ : Machine} {j : LabelRef}, EqualApart cfg m n → m.Sized cfg →
      m.steps cfg (w h) = .ok (m₁, j) → j = none ∧
        ∃ n₁, n.steps cfg (w' h) = .ok (n₁, none) ∧ EqualApart cfg m₁ n₁ ∧ m₁.Sized cfg)
    (equal : EqualApart cfg m n) (sized : m.Sized cfg)
    (run : m.steps cfg (hs.flatMap w) = .ok (m₁, j)) :
    ∃ n₁, n.steps cfg (hs.flatMap w') = .ok (n₁, j) ∧ EqualApart cfg m₁ n₁ ∧ m₁.Sized cfg := by
  induction hs generalizing m n with
  | nil =>
    cases run
    exact ⟨n, rfl, equal, sized⟩
  | cons h hs ih =>
    rw [List.flatMap_cons] at run ⊢
    obtain ⟨m₂, k, first, rest⟩ := steps_of_append run
    obtain ⟨still, n₂, first', equal, sized⟩ := step h List.mem_cons_self equal sized first
    rw [steps_append first']
    exact ih (fun g later => step g (List.mem_cons_of_mem h later)) equal sized (rest still)

theorem setVector (equal : EqualApart cfg m n) {r : Reg} {v : Bytes} {m₁ : Machine}
    (done : m.setVector r v = .ok m₁) :
    ∃ n₁, n.setVector r v = .ok n₁ ∧ EqualApart cfg m₁ n₁ ∧
      n₁.vectorAt? r.index = m₁.vectorAt? r.index := by
  obtain ⟨known, written⟩ := writes_of_setVector done
  have known' : (n.vectorAt? r.index).isSome := isSome_vectorAt?.mpr (isSome_vectorAt?.mp known)
  obtain ⟨n₁, done', written'⟩ := setVector_writes known' v
  have here : n₁.vectorAt? r.index = m₁.vectorAt? r.index := written'.here.trans written.here.symm
  refine ⟨n₁, done', ⟨?_, ?_, fun k kept => ?_⟩, here⟩
  · rw [written'.bases, written.bases, equal.bases]
  · rw [written'.memory, written.memory, equal.memory]
  · by_cases same : k = r.index
    · rw [same, here]
    · rw [written'.others k same, written.others k same, equal.vectors k kept]

include separated equal sized in
/-- A jump on a mask is made of the same primitives under any limits. They join the halves of the mask
in the temporary before they read it, so that what was there does not matter. -/
theorem after_maskJump {src : Reg} {cond : MaskCond} {target : LabelRef}
    (lowered : ((Program.backend cfg limits).lower (.maskJump src cond target)).outcome = .ok ())
    {m₁ : Machine} {j : LabelRef}
    (run : m.steps cfg ((Program.backend cfg limits).lower (.maskJump src cond target)).items =
      .ok (m₁, j)) :
    ∃ n₁, n.steps cfg ((Program.backend cfg limits).lower (.maskJump src cond target)).items =
      .ok (n₁, j) ∧ EqualApart cfg m₁ n₁ ∧ m₁.Sized cfg := by
  have usable : cfg.Usable src := Config.usable_of_checkVector (lower_maskJump lowered).1
  have items : ((Program.backend cfg limits).lower (.maskJump src cond target)).items =
      if cfg.halves = 1 then [.maskJump (cfg.phys src 0) cond target]
      else [.logic (if cond = .full then .and else .orr) (cfg.temp 0) (cfg.phys src 0)
        (cfg.phys src 1), .maskJump (cfg.temp 0) cond target] := (lower_maskJump lowered).2
  have same {h : Nat} (half : h < cfg.halves ∨ cfg.halves = 0) :
      n.vector (cfg.phys src h) = m.vector (cfg.phys src h) := by
    rw [vector_eq, vector_eq]
    refine congrArg orTrap (equal.vectors _ ?_)
    rcases half with half | none
    · exact separated.kept usable half
    · exact fun g inside => absurd inside (by omega)
  rw [items] at run ⊢
  by_cases single : cfg.halves = 1
  · rw [if_pos single] at run ⊢
    obtain ⟨done, jumped⟩ := steps_single.mp run
    cases done
    refine ⟨n, steps_single.mpr ⟨rfl, ?_⟩, equal, sized⟩
    rw [← jumped]
    simp only [jumpOf, same (.inl (single ▸ Nat.one_pos))]
  · rw [if_neg single] at run ⊢
    obtain ⟨m₂, k, first, rest⟩ := @steps_of_append _ [_] _ _ _ run
    obtain ⟨rfl, joined⟩ := effect_of_steps rfl first
    obtain ⟨done, jumped⟩ := steps_single.mp (rest rfl)
    cases done
    obtain ⟨y, right, joined⟩ := bind_eq_ok.mp joined
    obtain ⟨x, left, joined⟩ := bind_eq_ok.mp joined
    obtain ⟨v, value, joined⟩ := bind_eq_ok.mp joined
    obtain ⟨n₂, joined', equal', here⟩ := equal.setVector joined
    have left' : n.vector (cfg.phys src 0) = .ok x := (same (by omega)).trans left
    have right' : n.vector (cfg.phys src 1) = .ok y := (same (by omega)).trans right
    have first' : n.steps cfg [.logic (if cond = .full then .and else .orr) (cfg.temp 0)
        (cfg.phys src 0) (cfg.phys src 1)] = .ok (n₂, none) :=
      steps_single.mpr ⟨bind_eq_ok.mpr ⟨y, right', bind_eq_ok.mpr ⟨x, left',
        bind_eq_ok.mpr ⟨v, value, joined'⟩⟩⟩, rfl⟩
    refine ⟨n₂, ?_, equal', ?_⟩
    · rw [← List.singleton_append, steps_append first']
      refine steps_single.mpr ⟨rfl, ?_⟩
      rw [← jumped]
      simp only [jumpOf, vector_eq, here]
    · intro r named h half u read
      have apart := separated.temp_apart named (show 0 < cfg.halves by omega) half
      rw [(writes_of_setVector joined).2.others _ apart.symm] at read
      exact sized r named h half u read

include equal sized in
theorem after_scalar {i : Instr LabelRef} {p : Primitive} (single : single? i = some p) {m₁ : Machine}
    {j : LabelRef} (run : m.steps cfg [p] = .ok (m₁, j)) :
    ∃ n₁, n.steps cfg [p] = .ok (n₁, j) ∧ EqualApart cfg m₁ n₁ ∧ m₁.Sized cfg := by
  obtain ⟨done, jumped⟩ := steps_single.mp run
  obtain ⟨framed, jumped'⟩ := scalar_frame equal.bases equal.memory .rfl single done jumped
  refine ⟨_, steps_single.mpr ⟨framed.done, jumped'⟩, ⟨rfl, rfl, ?_⟩, ?_⟩
  · simpa only [vectorAt?, framed.vectors] using equal.vectors
  · simpa only [Sized, vectorAt?, framed.vectors] using sized

include separated whole equal sized in
/-- Whatever the instruction, its block under limits does what its block without does, apart from the
temporary. -/
theorem after_block (limits : Limits) {i : Instr LabelRef} (formed : i.Formed)
    (lowered : ((Program.backend cfg .none).lower i).outcome = .ok ()) {m₁ : Machine} {j : LabelRef}
    (run : m.steps cfg ((Program.backend cfg .none).toCapability.block i) = .ok (m₁, j)) :
    ∃ n₁, n.steps cfg ((Program.backend cfg limits).toCapability.block i) = .ok (n₁, j) ∧
      EqualApart cfg m₁ n₁ ∧ m₁.Sized cfg := by
  have again := Program.lower_ok limits lowered
  -- an instruction on vectors, from what each of its halves does
  have vector {d : Reg} (dest : i.dest? = some d)
      (run : m.steps cfg ((Program.backend cfg .none).lower i).items = .ok (m₁, j)) :
      ∃ n₁, n.steps cfg ((Program.backend cfg limits).lower i).items = .ok (n₁, j) ∧
        EqualApart cfg m₁ n₁ ∧ m₁.Sized cfg := by
    obtain ⟨accepted, w, each, items⟩ := lower_halved (halved_of_dest dest) lowered
    obtain ⟨accepted', w', each', items'⟩ := lower_halved (halved_of_dest dest) again
    rw [items] at run
    rw [items']
    refine after_halves (fun h inside _ _ _ _ equal sized run => ?_) equal sized run
    have half : h < cfg.halves := List.mem_range.mp inside
    exact equal.after_half separated whole sized half formed dest accepted accepted' (each h half)
      (each' h half) run
  have scalar {p : Primitive} (single : single? i = some p)
      (run : m.steps cfg ((Program.backend cfg .none).lower i).items = .ok (m₁, j)) :
      ∃ n₁, n.steps cfg ((Program.backend cfg limits).lower i).items = .ok (n₁, j) ∧
        EqualApart cfg m₁ n₁ ∧ m₁.Sized cfg := by
    rw [lower_single single lowered] at run
    rw [lower_single single again]
    exact equal.after_scalar sized single run
  cases i with
  | mov dst src =>
    cases dst with
    | reg d => exact vector rfl run
    | mem x =>
      obtain ⟨accepted, w, each, items⟩ := lower_halved rfl lowered
      obtain ⟨_, _, accepted⟩ := bind_eq_ok.mp accepted
      cases src with
      | mem y => cases accepted
      | imm k => cases accepted
      | reg r =>
        have block (limits : Limits) : (Program.backend cfg limits).toCapability.block
            (.mov (.mem x) (.reg r)) = (List.range cfg.halves).flatMap w := items
        rw [block] at run ⊢
        refine after_halves (fun h inside _ _ _ _ equal sized run => ?_) equal sized run
        have half : h < cfg.halves := List.mem_range.mp inside
        exact equal.after_half_store separated sized half (Config.usable_of_checkVector accepted)
          (each h half) run
    | imm k =>
      obtain ⟨_, passed, _⟩ := Emission.check_ok lowered
      cases passed
  | logic _ _ _ _ | not _ _ | arith _ _ _ _ _ | shift _ _ _ _ _ | shiftEach _ _ _ _ _
  | compare _ _ _ _ _ | merge _ _ => exact vector rfl run
  | maskJump src cond target => exact equal.after_maskJump separated sized again run
  | movBase _ _ | arithBase _ _ _ | shiftBase _ _ _ _ | compareJump _ _ _ _ | jump _ =>
    exact scalar rfl run
  | bind label =>
    cases run
    exact ⟨n, rfl, equal, sized⟩
  | unformed op => cases lowered

end EqualApart

theorem Machine.sized_of_vectors {cfg : Config} {m : Machine}
    (sized : ∀ v ∈ m.vectors, v.size = cfg.physBytes) : m.Sized cfg := by
  intro r usable h half v read
  unfold vectorAt? at read
  split at read
  · exact sized v (Vector.mem_of_getElem? read)
  · cases read

/-- A program that is assembled and run to its end without limits is assembled under any limits, and
given enough steps it runs to its end there and leaves the same memory, base registers and vector
registers, the temporary apart. -/
theorem limits_transparent {cfg : Config} (separated : cfg.Separated) (whole : 8 ∣ cfg.physBytes)
    {is : List (Instr LabelRef)} (formed : ∀ i ∈ is, i.Formed) {a : Assembler Program}
    (assembled : (Assembler.start .empty).issueAll (Program.backend cfg .none) is = .ok a)
    (clean : a.error? = none) {m : Machine} (sized : ∀ v ∈ m.vectors, v.size = cfg.physBytes)
    {limit : Nat} (ok : (a.state.run cfg limit m).outcome = .ok ()) (limits : Limits) :
    ∃ b, (Assembler.start .empty).issueAll (Program.backend cfg limits) is = .ok b ∧
      b.error? = none ∧
      (b.code (Program.backend cfg limits)).1 = (a.code (Program.backend cfg .none)).1 ∧
      ∃ enough, ∀ limit' ≥ enough, (b.state.run cfg limit' m).outcome = .ok () ∧
        (b.state.run cfg limit' m).machine.memory = (a.state.run cfg limit m).machine.memory ∧
        (b.state.run cfg limit' m).machine.bases = (a.state.run cfg limit m).machine.bases ∧
        ∀ k, (∀ h < cfg.halves, k ≠ cfg.physical cfg.tempReg h) →
          (b.state.run cfg limit' m).machine.vectorAt? k =
            (a.state.run cfg limit m).machine.vectorAt? k := by
  obtain ⟨b, assembled', clean', alike⟩ :=
    reassembled limits formed rfl ⟨fun _ => rfl, rfl⟩ assembled clean
  refine ⟨b, assembled', clean', ?_, ?_⟩
  · simp only [Assembler.code, clean, clean']
    exact alike.finish cfg .none limits
  obtain ⟨layout, lowered⟩ := Program.laidOut_of_issueAll assembled clean
  obtain ⟨layout', -⟩ := Program.laidOut_of_issueAll assembled' clean'
  obtain ⟨n, halts, equal, -⟩ := (layout.halts_of_run (k := 0) ok).simulate
    (R := fun m n => EqualApart cfg m n ∧ m.Sized cfg)
    (fun i member _ _ _ _ related run => related.1.after_block separated whole related.2 limits
      (formed i member) (lowered i member).1 run)
    ⟨⟨rfl, rfl, fun _ _ => rfl⟩, Machine.sized_of_vectors sized⟩
  obtain ⟨enough, ends⟩ := layout'.endsWell_of_halts halts
  refine ⟨enough, fun limit' large => ?_⟩
  obtain ⟨outcome, machine⟩ := ends limit' limit' large
  have final : (b.state.run cfg limit' m).machine = n := machine
  rw [final]
  exact ⟨outcome, equal.memory, equal.bases, equal.vectors⟩

/-- A loop in two halves that compares in place against memory and joins a complement with its own
destination, on a backend that has neither the comparator nor the joined complement. -/
theorem limits_transparent_loop :
    let cfg := Config.x86 Level.sse2 "sse2" "128x2" 16 2
    let data : Operand := .mem (.plain (.base 3) ⟨0, .dp⟩)
    let top : LabelRef := some ⟨.ofString "top", 0⟩
    let done : LabelRef := some ⟨.ofString "done", 1⟩
    let is : List (Instr LabelRef) :=
      [.movBase (.reg (.base 2)) (.imm ⟨2, .ib⟩), .bind top,
        .compare .clt .s16 (.xmm 1) (.xmm 1) data, .logic .orn (.xmm 2) (.xmm 1) (.reg (.xmm 2)),
        .arithBase .sub (.base 2) (.imm ⟨1, .ib⟩),
        .compareJump (.base 2) (.imm ⟨0, .ib⟩) .ne top, .maskJump (.xmm 1) .none done,
        .mov data (.reg (.xmm 2)), .bind done]
    let m := Machine.init cfg (Array.replicate 32 3)
    ∃ a b, (Assembler.start .empty).issueAll (Program.backend cfg .none) is = .ok a ∧
      (Assembler.start .empty).issueAll (Program.backend cfg ⟨true, true⟩) is = .ok b ∧
      a.state.steps.size < b.state.steps.size ∧
      ∃ enough, ∀ limit ≥ enough, (b.state.run cfg limit m).outcome = .ok () ∧
        (b.state.run cfg limit m).machine.memory = Array.replicate 32 0 := by
  intro cfg data top done is m
  have separated : cfg.Separated := by
    refine ⟨?_, ?_, by decide⟩ <;> simp only [Config.Held, cfg, Config.x86] <;> omega
  obtain ⟨a, assembled, checked⟩ : ∃ a : Assembler Program,
      (Assembler.start .empty).issueAll (Program.backend cfg .none) is = .ok a ∧
      (decide (a.error? = none) && decide (a.state.steps.size = 11) &&
        decide ((a.state.run cfg 30 m).outcome.toOption = some ()) &&
        decide ((a.state.run cfg 30 m).machine.memory = Array.replicate 32 0)) = true :=
    ok_of_any (by decide +kernel)
  obtain ⟨b', again, size⟩ : ∃ b : Assembler Program,
      (Assembler.start .empty).issueAll (Program.backend cfg ⟨true, true⟩) is = .ok b ∧
      decide (11 < b.state.steps.size) = true := ok_of_any (by decide +kernel)
  simp only [Bool.and_eq_true, decide_eq_true_eq] at checked size
  obtain ⟨⟨⟨clean, few⟩, ended⟩, result⟩ := checked
  obtain ⟨b, assembled', -, -, enough, ends⟩ := limits_transparent separated (by decide)
    (by simp [is, Instr.Formed, Program.baseOp, Op.isCompare, Op.isLogic]) assembled clean
    (m := m) (by simp [m, Machine.init, Bytes.zeros]) (Machine.toOption_eq_some.mp ended) ⟨true, true⟩
  obtain rfl := Except.ok.inj (again.symm.trans assembled')
  refine ⟨a, b', assembled, again, few ▸ size, enough, fun limit large => ?_⟩
  obtain ⟨outcome, memory, -⟩ := ends limit large
  exact ⟨outcome, memory.trans result⟩

end LaneAsm
