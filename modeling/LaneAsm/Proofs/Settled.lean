import LaneAsm.Assembler.Basic
import LaneAsm.Machine.Program
import LaneAsm.Proofs.Machine
import LaneAsm.Proofs.Routes

/-!
What the assembler asks of a backend. `Capability.Lowered` says which primitives an instruction can be
lowered to and what was checked before. So the registers of memory operands are checked before they
are let through (`Capability.lower_safe`), and only instructions with a label ask for one
(`Capability.lower_follows`). A backend that does not trap on such operands is steady, and then issuing
an instruction always ends well: what is wrong with it is kept as an error (`Assembler.issue_ok`).
-/
namespace LaneAsm

/-! ## Emissions -/

namespace Emission

variable {ι α β : Type} {S : Prop} {P : ι → Prop}

/-- Every item has a property, and where `S` holds no trap ends the emission. -/
structure Safe (S : Prop) (P : ι → Prop) (x : Emission ι α) : Prop where
  items : ∀ i ∈ x.items, P i
  outcome : S → x.outcome ≠ .error .trap

namespace Safe

theorem pure (a : α) : Safe S P (Pure.pure a : Emission ι α) :=
  ⟨fun _ => List.not_mem_nil.elim, nofun⟩

theorem emitAll {is : List ι} (all : ∀ i ∈ is, P i) : Safe S P (.emitAll is) := ⟨all, nofun⟩

theorem emit {i : ι} (holds : P i) : Safe S P (.emit i) :=
  emitAll fun _ member => List.mem_singleton.mp member ▸ holds

theorem fail (c : Cause) : Safe S P (.fail c : Emission ι α) :=
  ⟨fun _ => List.not_mem_nil.elim, nofun⟩

theorem bind {x : Emission ι α} {f : α → Emission ι β} (first : x.Safe S P)
    (rest : ∀ a, x.outcome = .ok a → (f a).Safe S P) : (x >>= f).Safe S P := by
  show (Emission.bind x f).Safe S P
  rw [Emission.bind]
  cases ended : x.outcome with
  | ok a =>
    refine ⟨fun i member => ?_, (rest a ended).outcome⟩
    rcases List.mem_append.mp member with early | late
    · exact first.items i early
    · exact (rest a ended).items i late
  | error e =>
    refine ⟨first.items, fun holds trapped => ?_⟩
    obtain rfl := Except.error.inj trapped
    exact first.outcome holds ended

theorem lift (x : Except Error α) : Safe S P (.check x : Emission ι α) := by
  refine ⟨fun _ => List.not_mem_nil.elim, fun _ => ?_⟩
  cases x with
  | ok a => exact nofun
  | error e => exact nofun

theorem check {x : Except Error α} {f : α → Emission ι β}
    (rest : ∀ a, x = .ok a → (f a).Safe S P) : (Emission.check x >>= f).Safe S P := by
  refine (lift x).bind fun a passed => rest a ?_
  cases x with
  | ok b => exact congrArg Except.ok (Except.ok.inj passed)
  | error e => cases passed

theorem each {f : α → Emission ι Unit} {as : List α} (step : ∀ a ∈ as, (f a).Safe S P) :
    (Emission.each f as).Safe S P := by
  induction as with
  | nil => exact pure ()
  | cons a as ih =>
    refine (step a List.mem_cons_self).bind fun _ _ => ih fun b member => ?_
    exact step b (List.mem_cons_of_mem a member)

theorem andFinally {x : Emission ι α} {last : List ι} (first : x.Safe S P)
    (all : ∀ i ∈ last, P i) : (x.andFinally last).Safe S P := by
  refine ⟨fun i member => ?_, first.outcome⟩
  rcases List.mem_append.mp member with early | late
  · exact first.items i early
  · exact all i late

theorem mono {Q : ι → Prop} {x : Emission ι α} (safe : x.Safe S P) (weaker : ∀ i, P i → Q i) :
    x.Safe S Q :=
  ⟨fun i member => weaker i (safe.items i member), safe.outcome⟩

end Safe

end Emission

/-! ## Lowering -/

namespace Capability

open Config Emission

/-- What a joined complement is made of where a backend lacks it. -/
inductive ComplementPart (d x : Reg) (y : Operand) (t : Reg) : Primitive → Prop where
  | complement {r : Reg} (place : r = d ∨ r = t) : ComplementPart d x y t (.not r x)
  | join {op : Op} {r : Reg} (plain : op = .and ∨ op = .orr) (place : r = d ∨ r = t) :
    ComplementPart d x y t (.logic op d r y)

theorem part_of_complementThen (op : Op) (d x : Reg) (y : Operand) (t : Reg) :
    ∀ p ∈ complementThen op d x y t, ComplementPart d x y t p := by
  have plain : (if op = .orn then Op.orr else .and) = .and ∨
      (if op = .orn then Op.orr else .and) = .orr := by
    split
    · exact .inr rfl
    · exact .inl rfl
  unfold complementThen
  dsimp only
  split
  · refine List.forall_mem_cons.2 ⟨.complement (.inr rfl), ?_⟩
    exact List.forall_mem_singleton.2 (.join plain (.inr rfl))
  · refine List.forall_mem_cons.2 ⟨.complement (.inl rfl), ?_⟩
    exact List.forall_mem_singleton.2 (.join plain (.inl rfl))

/-- What each instruction is lowered to, with the checks that it has passed by then. Whatever is said
of all primitives that are asked of a backend is said by cases on this. -/
inductive Lowered (cap : Capability) : Instr LabelRef → Primitive → Prop where
  | mov {dst src d s : Operand} {h : Nat}
    (passed : checkMove cap.config.checkVector cap.config.checkVectorSource dst src = .ok ())
    (half : h < cap.config.halves) (into : cap.config.half dst h = .ok d)
    (source : cap.config.half src h = .ok s) : Lowered cap (.mov dst src) (.move d s)
  | logic {op : Op} {dst s1 : Reg} {s2 y : Operand} {h : Nat}
    (passed : cap.config.checkSources dst s1 s2 = .ok ()) (half : h < cap.config.halves)
    (source : cap.config.half s2 h = .ok y) : Lowered cap (.logic op dst s1 s2)
      (.logic op (cap.config.phys dst h) (cap.config.phys s1 h) y)
  | complement {op : Op} {dst s1 : Reg} {s2 y : Operand} {h : Nat} {p : Primitive}
    (passed : cap.config.checkSources dst s1 s2 = .ok ()) (half : h < cap.config.halves)
    (source : cap.config.half s2 h = .ok y)
    (part : ComplementPart (cap.config.phys dst h) (cap.config.phys s1 h) y (cap.config.temp h) p) :
    Lowered cap (.logic op dst s1 s2) p
  | not {dst src : Reg} {h : Nat} (into : cap.config.checkVector dst = .ok ())
    (source : cap.config.checkVector src = .ok ()) (half : h < cap.config.halves) :
    Lowered cap (.not dst src) (.not (cap.config.phys dst h) (cap.config.phys src h))
  | arith {op : Op} {e : Elem} {dst s1 : Reg} {s2 y : Operand} {h : Nat}
    (supported : cap.checkSupported op e = .ok ())
    (passed : cap.config.checkSources dst s1 s2 = .ok ()) (half : h < cap.config.halves)
    (source : cap.config.half s2 h = .ok y) : Lowered cap (.arith op e dst s1 s2)
      (.arith op e (cap.config.phys dst h) (cap.config.phys s1 h) y)
  | shift {op : Op} {e : Elem} {dst src : Reg} {count : Operand} {h : Nat}
    (supported : cap.checkSupported op e = .ok ())
    (into : cap.config.checkVector dst = .ok ()) (source : cap.config.checkVector src = .ok ())
    (counted : (∃ i, count = .imm i ∧ i.check = .ok ()) ∨
      ∃ m, count = .mem m ∧ checkMem m = .ok ())
    (half : h < cap.config.halves) : Lowered cap (.shift op e dst src count)
      (.shift op e (cap.config.phys dst h) (cap.config.phys src h) count)
  | shiftEach {op : Op} {e : Elem} {dst src : Reg} {counts y : Operand} {h : Nat}
    (supported : cap.checkSupported op e = .ok ())
    (passed : cap.config.checkSources dst src counts = .ok ()) (half : h < cap.config.halves)
    (source : cap.config.half counts h = .ok y) : Lowered cap (.shiftEach op e dst src counts)
      (.shiftEach op e (cap.config.phys dst h) (cap.config.phys src h) y)
  | compare {c : Op} {e : Elem} {dst s1 : Reg} {s2 y : Operand} {h : Nat} {p : Primitive}
    (routed : cap.route c e ≠ .none)
    (passed : cap.config.checkSources dst s1 s2 = .ok ()) (half : h < cap.config.halves)
    (source : cap.config.half s2 h = .ok y)
    (part : Route.Part cap c e (cap.config.phys dst h) (cap.config.phys s1 h) y
      (cap.config.temp h) p) :
    Lowered cap (.compare c e dst s1 s2) p
  | merge {dst : Reg} {src y : Operand} {h : Nat} (into : cap.config.checkVector dst = .ok ())
    (passed : cap.config.checkVectorSource src = .ok ()) (half : h < cap.config.halves)
    (source : cap.config.half src h = .ok y) :
    Lowered cap (.merge dst src) (.merge (cap.config.phys dst h) y (cap.config.phys Reg.mask h))
  | join {src : Reg} {cond : MaskCond} {target : LabelRef}
    (passed : cap.config.checkVector src = .ok ()) (several : cap.config.halves ≠ 1) :
    Lowered cap (.maskJump src cond target) (.logic (if cond = .full then .and else .orr)
      (cap.config.temp 0) (cap.config.phys src 0) (cap.config.phys src 1))
  | maskJump {src r : Reg} {cond : MaskCond} {target : LabelRef}
    (passed : cap.config.checkVector src = .ok ())
    (place : r = cap.config.phys src 0 ∨ r = cap.config.temp 0) :
    Lowered cap (.maskJump src cond target) (.maskJump r cond target)
  | movBase {dst src : Operand} (passed : checkMove checkBase checkBaseSource dst src = .ok ()) :
    Lowered cap (.movBase dst src) (.moveBase dst src)
  | arithBase {op : Op} {dst : Reg} {src : Operand} (into : checkBase dst = .ok ())
    (source : checkBaseSource src = .ok ()) :
    Lowered cap (.arithBase op dst src) (.arithBase op dst src)
  | shiftBase {op : Op} {signed : Bool} {dst : Reg} {count : Imm} (into : checkBase dst = .ok ())
    (counted : count.check = .ok ()) :
    Lowered cap (.shiftBase op signed dst count) (.shiftBase op signed dst count)
  | compareJump {x : Reg} {y : Operand} {cond : Cond} {target : LabelRef}
    (left : checkBase x = .ok ()) (right : checkBaseSource y = .ok ())
    (known : ∀ code, cond ≠ .other code) :
    Lowered cap (.compareJump x y cond target) (.compareJump cond x y target)
  | jump (target : LabelRef) : Lowered cap (.jump target) (.jump target)
  | bind (label : LabelRef) : Lowered cap (.bind label) (.bind label)

theorem lower_lowered (cap : Capability) (i : Instr LabelRef) :
    (cap.lower i).Safe True (cap.Lowered i) := by
  have below {h : Nat} (member : h ∈ List.range cap.config.halves) : h < cap.config.halves :=
    List.mem_range.mp member
  cases i with
  | mov dst src =>
    refine .check fun _ passed => .each fun h member => .check fun d into => ?_
    exact .check fun s source => .emit (.mov passed (below member) into source)
  | logic op dst s1 s2 =>
    refine .check fun _ passed => .each fun h member => .check fun y source => ?_
    dsimp only
    split
    · exact .emit (.logic passed (below member) source)
    · refine .emitAll fun p part => .complement passed (below member) source ?_
      exact part_of_complementThen _ _ _ _ _ p part
  | not dst src =>
    refine .check fun _ into => .check fun _ source => .each fun h member => ?_
    exact .emit (.not into source (below member))
  | arith op e dst s1 s2 =>
    refine .check fun _ supported => .check fun _ passed => .each fun h member => ?_
    exact .check fun y source => .emit (.arith supported passed (below member) source)
  | shift op e dst src count =>
    refine .check fun _ supported => .check fun _ into => .check fun _ source => ?_
    refine .check fun _ passed => .each fun h member => ?_
    refine .emit (.shift supported into source ?_ (below member))
    cases count with
    | imm i => exact .inl ⟨i, rfl, passed⟩
    | mem m => exact .inr ⟨m, rfl, passed⟩
    | reg r => cases passed
  | shiftEach op e dst src counts =>
    refine .check fun _ supported => .check fun _ passed => .each fun h member => ?_
    exact .check fun y source => .emit (.shiftEach supported passed (below member) source)
  | compare c e dst s1 s2 =>
    refine .check fun _ passed => ?_
    dsimp only
    split
    · exact .fail _
    · next routed =>
      refine .each fun h member => .check fun y source => .emitAll fun p part => ?_
      exact .compare routed passed (below member) source ((Route.justified routed).part p part)
  | merge dst src =>
    refine .check fun _ into => .check fun _ passed => .each fun h member => ?_
    exact .check fun y source => .emit (.merge into passed (below member) source)
  | maskJump src cond target =>
    refine .check fun _ passed => ?_
    split
    · exact .emit (.maskJump passed (.inl rfl))
    · next several =>
      refine .emitAll (List.forall_mem_cons.2 ⟨.join passed several, ?_⟩)
      exact List.forall_mem_singleton.2 (.maskJump passed (.inr rfl))
  | movBase dst src => exact .check fun _ passed => .emit (.movBase passed)
  | arithBase op dst src =>
    exact .check fun _ into => .check fun _ source => .emit (.arithBase into source)
  | shiftBase op signed dst count =>
    exact .check fun _ into => .check fun _ counted => .emit (.shiftBase into counted)
  | compareJump x y cond target =>
    refine .check fun _ left => .check fun _ right => ?_
    split
    · exact .fail _
    · next known => exact .emit (.compareJump left right known)
  | jump target => exact .emit (.jump target)
  | bind label => exact .emit (.bind label)
  | unformed op => exact .fail _

end Capability

/-! ## Settled operands -/

/-- The registers of a memory operand are among the sixteen base registers. -/
def Mem.Settled (m : Mem) : Prop :=
  Config.checkBase m.base = .ok () ∧ ∀ r ∈ m.index, Config.checkBase r = .ok ()

def Operand.Settled : Operand → Prop
  | .mem m => m.Settled
  | _ => True

@[simp] theorem Operand.settled_reg (r : Reg) : (Operand.reg r).Settled := trivial

namespace Primitive

/-- The operands of a primitive that may lie in memory. -/
def operands : Primitive → List Operand
  | .move dst src | .moveBase dst src => [dst, src]
  | .logic _ _ _ y | .arith _ _ _ _ y | .shift _ _ _ _ y | .shiftEach _ _ _ _ y
  | .compare _ _ _ _ y | .merge _ y _ | .arithBase _ _ y | .compareJump _ _ y _ => [y]
  | _ => []

/-- The label that a primitive jumps to. -/
abbrev target? (p : Primitive) : Option LabelRef := Program.target? p

/-- Its memory operands are settled, and it does not bind a missing label. -/
def Settled (p : Primitive) : Prop := (∀ o ∈ p.operands, o.Settled) ∧ p ≠ .bind none

end Primitive

namespace Config

theorem settled_of_checkMem {m : Mem} (ok : checkMem m = .ok ()) : m.Settled := by
  obtain ⟨_, _, rest⟩ := bind_eq_ok.mp ok
  obtain ⟨_, base, index⟩ := bind_eq_ok.mp rest
  refine ⟨base, fun r given => ?_⟩
  simp only [Option.mem_def.mp given] at index
  split at index
  · cases index
  · exact index

theorem settled_of_checkVectorSource {cfg : Config} {o : Operand}
    (ok : cfg.checkVectorSource o = .ok ()) : o.Settled := by
  cases o with
  | mem m => exact settled_of_checkMem ok
  | reg r => trivial
  | imm i => trivial

theorem settled_of_checkBaseSource {o : Operand} (ok : checkBaseSource o = .ok ()) :
    o.Settled := by
  cases o with
  | mem m => exact settled_of_checkMem ok
  | reg r => trivial
  | imm i => trivial

theorem settled_of_half {cfg : Config} {o o' : Operand} {h : Nat} (settled : o.Settled)
    (found : cfg.half o h = .ok o') : o'.Settled := by
  cases o with
  | reg r =>
    obtain rfl := Except.ok.inj found
    trivial
  | imm i =>
    obtain rfl := Except.ok.inj found
    trivial
  | mem m =>
    simp only [half, Mem.offset] at found
    split at found
    · obtain rfl := Except.ok.inj found
      exact settled
    · split at found
      · obtain rfl := Except.ok.inj found
        exact settled
      · cases found

theorem settled_of_checkSources {cfg : Config} {dst s1 : Reg} {s2 : Operand}
    (ok : cfg.checkSources dst s1 s2 = .ok ()) : s2.Settled := by
  obtain ⟨_, _, rest⟩ := bind_eq_ok.mp ok
  obtain ⟨_, _, source⟩ := bind_eq_ok.mp rest
  exact settled_of_checkVectorSource source

theorem settled_of_checkMove {register : Reg → Except Error Unit}
    {source : Operand → Except Error Unit} (settles : ∀ o, source o = .ok () → o.Settled)
    {dst src : Operand} (ok : checkMove register source dst src = .ok ()) :
    dst.Settled ∧ src.Settled := by
  cases dst with
  | reg d =>
    obtain ⟨_, _, rest⟩ := bind_eq_ok.mp ok
    exact ⟨trivial, settles src rest⟩
  | mem d =>
    obtain ⟨_, memory, rest⟩ := bind_eq_ok.mp ok
    refine ⟨settled_of_checkMem memory, ?_⟩
    cases src with
    | reg s => trivial
    | mem m => cases rest
    | imm i => trivial
  | imm i => cases ok

end Config

/-- What a comparator is derived with has no operands but those of the comparison. -/
theorem Route.Part.settled {cap : Capability} {c : Op} {e : Elem} {d x : Reg} {y : Operand} {t : Reg}
    {p : Primitive} (part : Route.Part cap c e d x y t p) (settled : y.Settled) : p.Settled := by
  cases part with
  | load | extreme => exact ⟨by simpa [Primitive.operands] using settled, nofun⟩
  | compare orders native left right =>
    rcases right with rfl | rfl
    · exact ⟨by simpa [Primitive.operands] using settled, nofun⟩
    · exact ⟨by simp [Primitive.operands], nofun⟩
  | complement => exact ⟨by simp [Primitive.operands], nofun⟩

theorem Capability.ComplementPart.settled {d x : Reg} {y : Operand} {t : Reg} {p : Primitive}
    (part : Capability.ComplementPart d x y t p) (settled : y.Settled) : p.Settled := by
  cases part with
  | complement place => exact ⟨by simp [Primitive.operands], nofun⟩
  | join plain place => exact ⟨by simpa [Primitive.operands] using settled, nofun⟩

namespace Capability

open Emission Config

/-- The primitives of an instruction are settled, whatever it is, as long as its label is there. -/
theorem lower_safe (cap : Capability) {i : Instr LabelRef} (labelled : i.label? ≠ some none) :
    (cap.lower i).Safe True Primitive.Settled := by
  have lowered := cap.lower_lowered i
  refine ⟨fun p member => ?_, lowered.outcome⟩
  cases lowered.items p member with
  | mov passed half into source =>
    obtain ⟨left, right⟩ := settled_of_checkMove (fun o => settled_of_checkVectorSource) passed
    refine ⟨?_, nofun⟩
    simp [Primitive.operands, settled_of_half left into, settled_of_half right source]
  | logic passed half source | arith _ passed half source | shiftEach _ passed half source =>
    have settled := settled_of_half (settled_of_checkSources passed) source
    exact ⟨by simpa [Primitive.operands] using settled, nofun⟩
  | complement passed half source part | compare _ passed half source part =>
    exact part.settled (settled_of_half (settled_of_checkSources passed) source)
  | shift supported into source counted half =>
    refine ⟨?_, nofun⟩
    rcases counted with ⟨i, rfl, checked⟩ | ⟨m, rfl, checked⟩
    · simp [Primitive.operands, Operand.Settled]
    · simpa [Primitive.operands, Operand.Settled] using settled_of_checkMem checked
  | merge into passed half source =>
    have settled := settled_of_half (settled_of_checkVectorSource passed) source
    exact ⟨by simpa [Primitive.operands] using settled, nofun⟩
  | movBase passed =>
    obtain ⟨left, right⟩ := settled_of_checkMove (fun o => settled_of_checkBaseSource) passed
    exact ⟨by simp [Primitive.operands, left, right], nofun⟩
  | arithBase into source =>
    exact ⟨by simpa [Primitive.operands] using settled_of_checkBaseSource source, nofun⟩
  | compareJump left right known =>
    exact ⟨by simpa [Primitive.operands] using settled_of_checkBaseSource right, nofun⟩
  | not | join | maskJump | shiftBase | jump => exact ⟨by simp [Primitive.operands], nofun⟩
  | bind label =>
    refine ⟨by simp [Primitive.operands], ?_⟩
    rintro ⟨⟩
    exact labelled rfl

end Capability

/-! ## Labels -/

/-- The label that an instruction jumps to. -/
def Instr.target? {L : Type} : Instr L → Option L
  | .maskJump _ _ l | .compareJump _ _ _ l | .jump l => some l
  | _ => none

namespace Primitive

/-- A primitive that binds a label or jumps only where an instruction does. -/
def Follows (i : Instr LabelRef) (p : Primitive) : Prop :=
  (∀ l, p = .bind l → i = .bind l) ∧ (p.target? = none ∨ p.target? = i.target?)

end Primitive

namespace Capability

theorem lower_follows (cap : Capability) (i : Instr LabelRef) :
    ∀ p ∈ (cap.lower i).items, p.Follows i := by
  intro p member
  cases (cap.lower_lowered i).items p member with
  | complement _ _ _ part | compare _ _ _ _ part => cases part <;> exact ⟨nofun, .inl rfl⟩
  | maskJump | compareJump | jump => exact ⟨nofun, .inr rfl⟩
  | bind label =>
    refine ⟨fun l same => ?_, .inl rfl⟩
    rw [Primitive.bind.inj same]
  | _ => exact ⟨nofun, .inl rfl⟩

/-- Only a binding binds a label. -/
theorem bind_not_mem_lower {cap : Capability} {i : Instr LabelRef} (other : ∀ l, i ≠ .bind l)
    (l : LabelRef) : .bind l ∉ (cap.lower i).items :=
  fun member => other l ((cap.lower_follows i _ member).1 l rfl)

end Capability

/-! ## Backends -/

section
variable {σ : Type}

/-- A backend does not trap on primitives whose operands are settled. -/
def Backend.Steady (b : Backend σ) : Prop :=
  ∀ p : Primitive, p.Settled → ∀ s, (b.issue p s).1 ≠ .error .trap

theorem Backend.Steady.issueAll {b : Backend σ} (steady : b.Steady) {ps : List Primitive}
    (settled : ∀ p ∈ ps, p.Settled) (s : σ) : (b.issueAll ps s).1 ≠ .error .trap := by
  induction ps generalizing s with
  | nil => exact nofun
  | cons p ps ih =>
    have first := steady p (settled p List.mem_cons_self) s
    rw [Backend.issueAll]
    split
    · exact ih (fun q member => settled q (List.mem_cons_of_mem p member)) _
    · next e s' failed =>
      rw [failed] at first
      exact first

/-- Issuing an instruction ends well, whatever the instruction: an error is kept. -/
theorem Assembler.issue_ok {b : Backend σ} (steady : b.Steady) (a : Assembler σ)
    {i : Instr LabelRef} (labelled : i.label? ≠ some none) : (a.issue b i).1 = .ok () := by
  have safe := b.lower_safe labelled
  simp only [Assembler.issue]
  split
  · rfl
  · have done := steady.issueAll safe.items a.state
    split
    · rfl
    · rfl
    · next trapped =>
      refine absurd trapped ?_
      cases ended : (b.issueAll (b.lower i).items a.state).1 with
      | ok _ => exact safe.outcome trivial
      | error f =>
        intro same
        obtain rfl := Except.error.inj same
        exact done ended

end

theorem Program.bind_some (p : Program) (l : Label) : p.bind (some l) ≠ .error .trap := by
  unfold Program.bind
  split
  · exact nofun
  · exact nofun

theorem Program.steady (cfg : Config) (limits : Limits) : (Program.backend cfg limits).Steady := by
  intro p settled s
  show (Program.issue limits p s).1 ≠ _
  unfold Program.issue
  split
  · next l =>
    cases l with
    | none => exact absurd rfl settled.2
    | some l =>
      split
      · exact nofun
      · next failed =>
        intro trapped
        obtain rfl := Except.error.inj trapped
        exact s.bind_some l failed
  · split
    · exact nofun
    · exact nofun

end LaneAsm
