import LaneAsm.Proofs.X86.Sequence

/-!
Work in scratch memory. The two slots of a target lie side by side in one area (`Area`). Selections
are followed instruction by instruction (`Selects`): groups that each write the next part of the
first slot write all of it (`selects_groups`), and registers saved on the stack come back
(`reaches_saved`).
-/
namespace LaneAsm.X86

/-- What expansions take for granted of a target: vector registers of sixteen bytes, or of 32 with
VEX, and a scratch area in the widest window of displacements, at a base register that expansions
leave alone. -/
structure Expandable (cfg : Config) : Prop where
  width : cfg.physBytes = 16 ∨ cfg.physBytes = 32 ∧ vexed cfg = true
  base : 0 ≤ cfg.scratchBase ∧ cfg.scratchBase ≤ 15
  free : cfg.scratchBase ≠ 0 ∧ cfg.scratchBase ≠ 1 ∧ cfg.scratchBase ≠ 4
  window : 0 ≤ cfg.scratchOffset ∧ cfg.scratchOffset + 2 * cfg.physBytes ≤ 2 ^ 31

/-- The base register of the scratch area. -/
def scratchReg (cfg : Config) : RegNum := Fin.ofNat 16 cfg.scratchBase.toNat

namespace Expandable

variable {cfg : Config} (ok : Expandable cfg)
include ok

theorem vectorBytes_wide : vectorBytes (wide cfg) = cfg.physBytes := by
  rcases ok.width with width | ⟨width, _⟩ <;> simp [vectorBytes, wide, width]

theorem vexed_of_wide (long : wide cfg = true) : vexed cfg = true := by
  rcases ok.width with width | ⟨_, vex⟩
  · simp [wide, width] at long
  · exact vex

theorem physBytes_le : cfg.physBytes ≤ 32 := by
  have := ok.width
  omega

theorem baseNum_eq : baseNum (.base cfg.scratchBase) = .ok (scratchReg cfg) := by
  obtain ⟨least, greatest⟩ := ok.base
  have small : cfg.scratchBase.toNat % 16 = cfg.scratchBase.toNat := by omega
  simp [baseNum, number, Reg.base, least, greatest, scratchReg, Fin.ofNat, small]

theorem scratchReg_free : scratchReg cfg ∉ [rax, rcx, rsp] := by
  obtain ⟨least, greatest⟩ := ok.base
  obtain ⟨first, second, third⟩ := ok.free
  have small : cfg.scratchBase.toNat % 16 = cfg.scratchBase.toNat := by omega
  simp [scratchReg, rax, rcx, rsp, Fin.ext_iff, small]
  omega

end Expandable

/-- The scratch area of a state starts at an address. Where addresses are short the area does not
run past the last of them. -/
structure Area (cfg : Config) (s : State) (start : UInt64) : Prop where
  found : s.address? cfg.shortAddress cfg.slots.a = some start
  fits : cfg.shortAddress = true → start.toNat + 2 * cfg.physBytes ≤ 2 ^ 32

theorem address?_plain (s : State) (short : Bool) {base : Reg} {r : RegNum}
    (number : baseNum base = .ok r) (disp : Disp) : s.address? short (.plain base disp) =
      some (if short then cut 32 (s.gpr r + UInt64.ofInt (disp.value.bmod (2 ^ 32)))
        else s.gpr r + UInt64.ofInt (disp.value.bmod (2 ^ 32))) := by
  simp [State.address?, State.index?, Mem.plain, number, Except.toOption]

theorem cut_add {x : UInt64} {k : Nat} (fits : (cut 32 x).toNat + k < 2 ^ 32) :
    cut 32 (x + UInt64.ofNat k) = cut 32 x + UInt64.ofNat k := by
  rw [toNat_cut (by decide)] at fits
  rw [← UInt64.toNat_inj, toNat_cut (by decide), UInt64.toNat_add, UInt64.toNat_add,
    toNat_cut (by decide), UInt64.toNat_ofNat']
  omega

namespace Area

variable {cfg : Config} (ok : Expandable cfg) {s t : State} {start : UInt64}
  (area : Area cfg s start)
include ok area

/-- The area stays where it is while its base register does. -/
theorem of_keeps {free : List RegNum} (kept : Keeps free s t) (apart : free ⊆ [rax, rcx, rsp]) :
    Area cfg t start := by
  have same : t.gpr (scratchReg cfg) = s.gpr (scratchReg cfg) :=
    kept.gpr _ fun mem => ok.scratchReg_free (apart mem)
  refine ⟨?_, area.fits⟩
  rw [← area.found, Config.slots, address?_plain _ _ ok.baseNum_eq,
    address?_plain _ _ ok.baseNum_eq, same]

/-- An address some bytes into the area. -/
theorem slot {k : Nat} (inside : k < 2 * cfg.physBytes) :
    s.address? cfg.shortAddress (cfg.slots.a.advance k) = some (start + UInt64.ofNat k) := by
  have window := ok.window
  have first : cfg.scratchOffset.bmod (2 ^ 32) = cfg.scratchOffset := by
    rw [Int.bmod_def]
    omega
  have later : (wrap64 (cfg.scratchOffset + k)).bmod (2 ^ 32) = cfg.scratchOffset + k := by
    rw [wrap64, Int.bmod_def, Int.bmod_def]
    omega
  have count : UInt64.ofInt k = UInt64.ofNat k := by
    rw [UInt64.ofInt, ← UInt64.toNat_inj, UInt64.toNat_ofNat', UInt64.toNat_ofNat']
    omega
  have here := address?_plain s cfg.shortAddress ok.baseNum_eq ⟨cfg.scratchOffset, .dv⟩
  have there := address?_plain s cfg.shortAddress ok.baseNum_eq
    ⟨wrap64 (cfg.scratchOffset + k), .dv⟩
  simp only [first] at here
  simp only [later, UInt64.ofInt_add, count, ← UInt64.add_assoc] at there
  have begins := Option.some.inj (area.found.symm.trans here)
  refine there.trans (congrArg some ?_)
  have fits := area.fits
  cases short : cfg.shortAddress with
  | false => simp [begins, short]
  | true =>
    simp only [begins, short, ↓reduceIte, forall_const] at fits ⊢
    exact cut_add (by omega)

/-- An address some bytes into the second slot. -/
theorem second {k : Nat} (inside : k < cfg.physBytes) :
    s.address? cfg.shortAddress (cfg.slots.b.advance k) =
      some (start + UInt64.ofNat (cfg.physBytes + k)) := by
  have same : cfg.slots.b.advance k = cfg.slots.a.advance (cfg.physBytes + k : Nat) := by
    have := ok.window
    simp only [Mem.advance, Config.slots, Mem.plain, Mem.mk.injEq, Disp.mk.injEq, wrap64, and_true,
      true_and, Int.bmod_def]
    omega
  rw [same]
  exact area.slot ok (by omega)

end Area

/-! ## Selections -/

/-- A selection ends well, and its instructions run to a state with a property. -/
structure Selects (u : VectorUnit) (short : Bool) (x : Selection Unit) (s : State)
    (post : State → Prop) : Prop where
  ok : x.outcome = .ok ()
  runs : s.Reaches u short x.items post

namespace Selects

variable {u : VectorUnit} {short : Bool} {s : State} {mid post : State → Prop}

theorem emitAll {is : List Insn} (runs : s.Reaches u short is post) :
    Selects u short (.emitAll is) s post := ⟨rfl, runs⟩

theorem mono {x : Selection Unit} (selects : Selects u short x s mid)
    (weaker : ∀ t, mid t → post t) : Selects u short x s post := by
  obtain ⟨ok, t, ran, holds⟩ := selects
  exact ⟨ok, t, ran, weaker t holds⟩

theorem bind {x : Selection Unit} {f : Unit → Selection Unit} (first : Selects u short x s mid)
    (rest : ∀ t, mid t → Selects u short (f ()) t post) : Selects u short (x >>= f) s post := by
  obtain ⟨t, _, holds⟩ := first.runs
  have both : x >>= f = ⟨x.items ++ (f ()).items, (f ()).outcome⟩ := by
    show Emission.bind x f = _
    rw [Emission.bind, first.ok]
  rw [both]
  exact ⟨(rest t holds).ok, first.runs.append fun v reached => (rest v reached).runs⟩

theorem check {α : Type} {x : Except Error α} {a : α} (passed : x = .ok a)
    {f : α → Selection Unit} (rest : Selects u short (f a) s post) :
    Selects u short (Emission.check x >>= f) s post := by
  subst passed
  exact rest

/-- What holds of the state at each element of a list in turn. -/
theorem each {α : Type} {f : α → Selection Unit} {as : List α} {n : Nat} (length : as.length = n)
    (inv : Nat → State → Prop)
    (step : ∀ i a, as[i]? = some a → ∀ t, inv i t → Selects u short (f a) t (inv (i + 1)))
    (start : inv 0 s) : Selects u short (Emission.each f as) s (inv n) := by
  subst length
  induction as generalizing s inv with
  | nil => exact ⟨rfl, .done start⟩
  | cons a as ih =>
    refine (step 0 a rfl s start).bind fun t holds => ?_
    exact ih (fun i => inv (i + 1)) (fun i a at_i => step (i + 1) a at_i) holds

end Selects

/-! ## Groups -/

/-- The first results of groups, one after the other. -/
def joined (result : Nat → Bytes) : Nat → Bytes
  | 0 => #[]
  | n + 1 => joined result n ++ result n

theorem size_joined {result : Nat → Bytes} {g n : Nat} (sizes : ∀ i < n, (result i).size = g) :
    (joined result n).size = n * g := by
  induction n with
  | zero => simp [joined]
  | succ n ih =>
    rw [joined, Array.size_append, ih fun i below => sizes i (by omega), sizes n (by omega),
      Nat.succ_mul]

section
variable {g size : Nat} (pos : 0 < g) (whole : g ∣ size) (small : size ≤ 32)
include pos whole small

theorem groups_eq {unit : StepUnit} (planned : unit ≠ .none) : (Plan.mk unit size g).groups =
    .ok ((List.range (size / g)).map fun i => (i, (i : Int) * g)) := by
  have remainder : (size : Int).tmod g = 0 := by
    rw [← Int.ofNat_tmod, Nat.mod_eq_zero_of_dvd whole]
    rfl
  have steps : (Plan.mk unit size g).steps = (size / g : Nat) := by
    have bound := Nat.div_le_self size g
    simp only [Plan.steps]
    rw [if_neg (by omega), ← Int.ofNat_tdiv]
    generalize size / g = n at bound ⊢
    rw [Int.bmod_def]
    omega
  rw [Plan.groups, if_neg (by simp [planned, remainder]; omega), steps]
  rfl

/-- Groups that each write the next part of an area write all of it. What lies past the parts
already written is as it was. -/
theorem selects_groups {u : VectorUnit} {short : Bool} {s : State} {unit : StepUnit}
    (planned : unit ≠ .none) {start : UInt64} {free : List RegNum} {work : Int → Selection Unit}
    {result : Nat → Bytes} (sizes : ∀ i < size / g, (result i).size = g)
    (step : ∀ i, i * g + g ≤ size → ∀ t, Keeps free s t →
      (∀ k n, i * g ≤ k → k + n ≤ 2 ^ 64 →
        t.mem.read (start + UInt64.ofNat k) n = s.mem.read (start + UInt64.ofNat k) n) →
      Selects u short (work (i * g : Nat)) t fun v => Keeps free t v ∧
        v.mem = t.mem.write (start + UInt64.ofNat (i * g)) (result i)) :
    Selects u short (eachGroup ⟨unit, size, g⟩ work) s fun t => Keeps free s t ∧
      t.mem = s.mem.write start (joined result (size / g)) := by
  refine Selects.check (groups_eq pos whole small planned) ?_
  refine Selects.each (by simp)
    (fun i t => Keeps free s t ∧ t.mem = s.mem.write start (joined result i))
    (fun i a at_i t ⟨kept, mem⟩ => ?_) ⟨Keeps.refl _ s, ?_⟩
  · rw [List.getElem?_map, Option.map_eq_some_iff] at at_i
    obtain ⟨j, at_j, rfl⟩ := at_i
    obtain ⟨below, same⟩ := List.getElem?_eq_some_iff.mp at_j
    rw [List.length_range] at below
    obtain rfl : i = j := by simpa using same
    have length := size_joined fun k less => sizes k (Nat.lt_trans less below)
    have room := Nat.mul_le_of_le_div _ _ _ (show i + 1 ≤ size / g from below)
    rw [Nat.succ_mul] at room
    obtain ⟨ok, v, ran, further, written⟩ := step i room t kept fun k n past fits => by
      rw [mem, Memory.read_write_after (by omega) fits]
    refine ⟨by simpa using ok, v, by simpa using ran, kept.trans further, ?_⟩
    rw [written, mem, ← length, Memory.write_append (by rw [length, sizes i below]; omega), joined]
  · funext c
    exact (Memory.write_outside (by simp [joined, Inside])).symm

end

/-! ## The stack -/

/-- A state with a register on top of the stack. -/
def State.pushed (s : State) (r : RegNum) : State :=
  (s.setGpr rsp (s.gpr rsp - 8)).store (s.gpr rsp - 8) (littleEndian 8 (s.gpr r)).toArray

theorem State.pushed_rsp (s : State) (r : RegNum) : (s.pushed r).gpr rsp = s.gpr rsp - 8 := by
  simp only [State.pushed, State.store, State.setGpr_self]

theorem wordOf_littleEndian (x : UInt64) : wordOf (littleEndian 8 x) = x := by
  rw [← UInt64.toNat_inj, toNat_wordOf_littleEndian 8 x (by decide)]
  exact Nat.mod_eq_of_lt x.toNat_lt

theorem sub_eight (a : UInt64) : a - 8 = a - 16 + UInt64.ofNat 8 := by
  rw [← UInt64.toNat_inj, UInt64.toNat_add, UInt64.toNat_sub, UInt64.toNat_sub]
  simp
  omega

section
variable {u : VectorUnit} {short : Bool} {s : State}

theorem Keeps.pushed (s : State) (r : RegNum) : Keeps [rsp] s (s.pushed r) :=
  ⟨((Keeps.refl [rsp] s).setGpr (by decide) _).gpr, fun _ _ => rfl⟩

/-- A register that is saved around some work comes back. -/
theorem reaches_saved (free : List RegNum) (r : RegNum) (post : Memory → Prop) (general : r ≠ rsp)
    (stack : rsp ∉ free) {is : List Insn}
    (inner : (s.pushed r).Reaches u short is fun t => Keeps (r :: free) (s.pushed r) t ∧
      t.mem.read (s.gpr rsp - 8) 8 = (s.pushed r).mem.read (s.gpr rsp - 8) 8 ∧ post t.mem) :
    s.Reaches u short (.push r :: (is ++ [.pop r])) fun t => Keeps free s t ∧ post t.mem := by
  refine .step (t := s.pushed r) rfl (inner.append fun t ⟨kept, saved, holds⟩ => ?_)
  have top : t.gpr rsp = s.gpr rsp - 8 :=
    (kept.gpr rsp (by simp [stack, general.symm])).trans (State.pushed_rsp s r)
  have back : wordOf (t.mem.read (t.gpr rsp) 8).toList = s.gpr r := by
    have size : (littleEndian 8 (s.gpr r)).toArray.size = 8 := by simp [length_littleEndian]
    have read := Memory.read_write (m := s.mem) (a := s.gpr rsp - 8)
      (v := (littleEndian 8 (s.gpr r)).toArray) (by omega)
    rw [size] at read
    rw [top, saved]
    exact (congrArg (fun v => wordOf v.toList) read).trans (wordOf_littleEndian _)
  refine .step rfl (.done ⟨⟨fun k other => ?_, kept.vec⟩, holds⟩)
  by_cases same : k = r
  · rw [same, State.setGpr_self, back]
  · rw [State.setGpr_of_ne same]
    by_cases pointer : k = rsp
    · rw [pointer, State.setGpr_self, top, UInt64.sub_add_cancel]
    · rw [State.setGpr_of_ne pointer, kept.gpr k (by simp [same, other])]
      exact State.setGpr_of_ne pointer ..

/-- Work in an area apart from the stack leaves what was saved around it. -/
theorem selects_around {work : Selection Unit} {start : UInt64} {n : Nat}
    (apart : Apart (s.gpr rsp - 16) 16 start n) (post : Memory → Prop)
    (inner : ∀ v, Keeps [rsp] s v → Memory.Within (s.gpr rsp - 16) 16 s.mem v.mem →
      Selects u short work v fun t => Keeps [rax, rcx] v t ∧ Memory.Within start n v.mem t.mem ∧
        post t.mem) :
    Selects u short (aroundScalar work) s fun t => Keeps [] s t ∧ post t.mem ∧
      ∀ c, ¬Inside start n c → ¬Inside (s.gpr rsp - 16) 16 c → t.mem c = s.mem c := by
  let s₁ := s.pushed rax
  let s₂ := s₁.pushed rcx
  have first := sub_eight (s.gpr rsp)
  have second : s₁.gpr rsp - 8 = s.gpr rsp - 16 := by
    rw [State.pushed_rsp, ← UInt64.toNat_inj, UInt64.toNat_sub, UInt64.toNat_sub, UInt64.toNat_sub]
    simp
    omega
  have size (x : UInt64) : (littleEndian 8 x).toArray.size = 8 := by simp [length_littleEndian]
  have mem₁ : s₁.mem = s.mem.write (s.gpr rsp - 16 + UInt64.ofNat 8)
      (littleEndian 8 (s.gpr rax)).toArray := congrArg (s.mem.write · _) first
  have mem₂ : s₂.mem = s₁.mem.write (s.gpr rsp - 16) (littleEndian 8 (s₁.gpr rcx)).toArray :=
    congrArg (s₁.mem.write · _) second
  have stack : Memory.Within (s.gpr rsp - 16) 16 s.mem s₂.mem := by
    rw [mem₂, mem₁]
    refine (Memory.within_write _ fun c inside => ?_).trans
      (Memory.within_write _ fun c inside => ?_)
    · exact inside.of_offset (by simp [size])
    · exact inside.mono (by simp [size])
  obtain ⟨ok, t, ran, kept, within, holds⟩ :=
    inner s₂ ((Keeps.pushed s rax).trans (Keeps.pushed s₁ rcx)) stack
  have outer : t.mem.read (s.gpr rsp - 8) 8 = s₁.mem.read (s.gpr rsp - 8) 8 := by
    rw [first, within.read (apart.part (by decide)) (by decide), mem₂,
      Memory.read_write_after (by simp [size]) (by decide)]
  have nearer : t.mem.read (s₁.gpr rsp - 8) 8 = s₂.mem.read (s₁.gpr rsp - 8) 8 := by
    rw [second]
    exact within.read (fun c inside => apart c (inside.mono (by decide))) (by decide)
  let after (m : Memory) : Prop :=
    post m ∧ ∀ c, ¬Inside start n c → ¬Inside (s.gpr rsp - 16) 16 c → m c = s.mem c
  have finished : after t.mem :=
    ⟨holds, fun c area below => (within c area).trans (stack c below)⟩
  have saved := reaches_saved [rax] rcx
    (fun m => m.read (s.gpr rsp - 8) 8 = s₁.mem.read (s.gpr rsp - 8) 8 ∧ after m)
    (by decide) (by decide) ⟨t, ran, kept.mono (by decide), nearer, outer, finished⟩
  have restored := reaches_saved (s := s) [] rax after (by decide) (by decide) saved
  refine ⟨ok, ?_⟩
  have items : (aroundScalar work).items =
      .push rax :: ((.push rcx :: (work.items ++ [.pop rcx])) ++ [.pop rax]) := by
    simp [aroundScalar, Emission.andFinally, Emission.emitAll, Bind.bind, Emission.bind]
  rw [items]
  exact restored

end

end LaneAsm.X86
