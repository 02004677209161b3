import LaneAsm.Catalog.BuiltIn
import LaneAsm.Proofs.Bytes
import LaneAsm.Proofs.Halves
import LaneAsm.Proofs.Listing.Operand
import LaneAsm.Proofs.Lowering
import LaneAsm.Proofs.Msa.Selected
import LaneAsm.Proofs.X86.Decoding

/-!
What the assembler asks of a backend is in range: vector registers lie in the physical file, base
registers among the sixteen, displacements and immediates in their windows (`lower_inRange`). A
backend that keeps what it was asked for shows it of every call of the assembler
(`Use.inRange_runAll`), so that the tables which the encoders read without a check hold whatever is
looked up in them.
-/
namespace LaneAsm

/-! ## Operands in range -/

/-- A vector register of a physical file of `n`. -/
def Reg.InFile (n : Nat) (r : Reg) : Prop := r.kind = .vector ∧ 0 ≤ r.index ∧ r.index < n

/-- One of the sixteen base registers. -/
def Reg.InBase (r : Reg) : Prop := r.kind = .base ∧ 0 ≤ r.index ∧ r.index ≤ 15

structure Mem.InRange (m : Mem) : Prop where
  base : m.base.InBase
  index : ∀ r ∈ m.index, r.InBase ∧ r ≠ Reg.stack
  aligned : 4 ∣ m.disp.value
  least : 0 ≤ m.disp.value
  most : m.disp.value ≤ 0x7FFFFFFC

/-- The value lies in the window of its class, which is one of the named ones. -/
def Imm.InRange (i : Imm) : Prop := ∃ mask ∈ i.kind.mask?, 0 ≤ i.value ∧ i.value ≤ mask.toNat

namespace Operand

/-- A vector register of a file of `n`, or memory. -/
def VectorIn (n : Nat) : Operand → Prop
  | .reg r => r.InFile n
  | .mem m => m.InRange
  | .imm _ => False

/-- A base register, memory, or an immediate. -/
def BaseIn : Operand → Prop
  | .reg r => r.InBase
  | .mem m => m.InRange
  | .imm i => i.InRange

/-- A count for every lane: memory or an immediate. -/
def CountIn : Operand → Prop
  | .reg _ => False
  | .mem m => m.InRange
  | .imm i => i.InRange

end Operand

/-- Every operand of a request is in range, with vector registers of a file of `n`. -/
def Primitive.InRange (n : Nat) : Primitive → Prop
  | .move dst src => dst.VectorIn n ∧ src.VectorIn n
  | .logic _ d x y | .arith _ _ d x y | .shiftEach _ _ d x y | .compare _ _ d x y =>
    d.InFile n ∧ x.InFile n ∧ y.VectorIn n
  | .not d x => d.InFile n ∧ x.InFile n
  | .shift _ _ d x count => d.InFile n ∧ x.InFile n ∧ count.CountIn
  | .merge d y mask => d.InFile n ∧ y.VectorIn n ∧ mask.InFile n
  | .maskJump x _ _ => x.InFile n
  | .moveBase dst src => dst.BaseIn ∧ src.BaseIn
  | .arithBase _ d y => d.InBase ∧ y.BaseIn
  | .shiftBase _ _ d count => d.InBase ∧ count.InRange
  | .compareJump c x y _ => c.code ≤ Cond.ges.code ∧ x.InBase ∧ y.BaseIn
  | .jump _ | .bind _ => True

/-- The value of an operand is one of 64 bits. -/
def Operand.Word : Operand → Prop
  | .reg _ => True
  | .mem m => m.disp.value < 2 ^ 63
  | .imm i => i.value < 2 ^ 63

/-- The operands of an instruction that hold values. -/
def Instr.operands {L : Type} : Instr L → List Operand
  | .mov dst src | .movBase dst src => [dst, src]
  | .logic _ _ _ y | .arith _ _ _ _ y | .shift _ _ _ _ y | .shiftEach _ _ _ _ y
  | .compare _ _ _ _ y | .merge _ y | .arithBase _ _ y | .compareJump _ y _ _ => [y]
  | .shiftBase _ _ _ count => [.imm count]
  | _ => []

/-! ## What the checks let through -/

/-- A value inside a mask has no bit that the mask lacks. -/
theorem and_eq_self_of_insideMask {mask : UInt64} {v : Int} (word : v < 2 ^ 63)
    (inside : insideMask mask v = true) : v.toNat &&& mask.toNat = v.toNat := by
  have least := nonneg_of_insideMask inside
  simp only [insideMask, Bool.and_eq_true, beq_iff_eq] at inside
  have kept : UInt64.ofInt v &&& mask = UInt64.ofInt v := by
    apply UInt64.toBitVec_inj.mp
    ext i below
    have outside := congrArg (fun x : UInt64 => x.toBitVec[i]) inside.2
    simpa using outside
  have number : (UInt64.ofInt v).toNat = v.toNat := by
    have wrapped := toNat_ofInt v
    omega
  rw [← number, ← UInt64.toNat_and, kept]

theorem le_of_insideMask {mask : UInt64} {v : Int} (word : v < 2 ^ 63)
    (inside : insideMask mask v = true) : v ≤ mask.toNat := by
  have least := nonneg_of_insideMask inside
  have kept := and_eq_self_of_insideMask word inside
  have most : v.toNat &&& mask.toNat ≤ mask.toNat := Nat.and_le_right
  omega

theorem dvd_of_insideMask {mask : UInt64} {v : Int} (word : v < 2 ^ 63)
    (inside : insideMask mask v = true) (low : mask.toNat &&& 3 = 0) : 4 ∣ v := by
  have least := nonneg_of_insideMask inside
  have rest : v.toNat % 4 = 0 := by
    rw [← Nat.and_two_pow_sub_one_eq_mod v.toNat 2, ← and_eq_self_of_insideMask word inside,
      Nat.and_assoc]
    simp [low]
  omega

theorem Imm.inRange_of_check {i : Imm} (word : i.value < 2 ^ 63) (passed : i.check = .ok ()) :
    i.InRange := by
  unfold check at passed
  split at passed
  · next mask found =>
    split at passed
    · next inside => exact ⟨mask, found, nonneg_of_insideMask inside, le_of_insideMask word inside⟩
    · cases passed
  · cases passed

/-- Every window of displacements lies in the widest one and leaves the two low bits out. -/
theorem DispClass.window {c : DispClass} {mask : UInt64} (found : c.mask? = some mask) :
    mask.toNat &&& 3 = 0 ∧ mask.toNat ≤ 0x7FFFFFFC := by
  cases c <;> cases found <;> decide

theorem Disp.inRange_of_check {d : Disp} (word : d.value < 2 ^ 63) (passed : d.check = .ok ()) :
    4 ∣ d.value ∧ 0 ≤ d.value ∧ d.value ≤ 0x7FFFFFFC := by
  unfold check at passed
  split at passed
  · next mask found =>
    obtain ⟨low, most⟩ := DispClass.window found
    split at passed
    · next inside =>
      have bound := le_of_insideMask word inside
      exact ⟨dvd_of_insideMask word inside low, nonneg_of_insideMask inside, by omega⟩
    · cases passed
  · cases passed

namespace Config

theorem inBase_of_checkBase {r : Reg} (ok : checkBase r = .ok ()) : r.InBase := by
  unfold checkBase at ok
  split at ok
  · cases ok
  split at ok
  · cases ok
  · next base inside => exact ⟨by simpa using base, by omega, by omega⟩

theorem inRange_of_checkMem {m : Mem} (word : m.disp.value < 2 ^ 63) (ok : checkMem m = .ok ()) :
    m.InRange := by
  obtain ⟨_, formed, rest⟩ := bind_eq_ok.mp ok
  obtain ⟨aligned, least, most⟩ := Disp.inRange_of_check word (Mem.parts_of_check formed).2.2
  obtain ⟨_, base, index⟩ := bind_eq_ok.mp rest
  refine ⟨inBase_of_checkBase base, fun r given => ?_, aligned, least, most⟩
  simp only [Option.mem_def.mp given] at index
  split at index
  · cases index
  · next other => exact ⟨inBase_of_checkBase index, other⟩

theorem baseIn_of_checkBaseSource {o : Operand} (word : o.Word) (ok : checkBaseSource o = .ok ()) :
    o.BaseIn := by
  cases o with
  | reg r => exact inBase_of_checkBase ok
  | mem m => exact inRange_of_checkMem word ok
  | imm i => exact Imm.inRange_of_check word ok

/-- Usable registers and the temporary lie in a physical file of `n`, whichever half is at hand. -/
structure Maps (cfg : Config) (n : Nat) : Prop where
  halves : 0 < cfg.halves
  usable : ∀ h < cfg.halves, ∀ i : Int, 0 ≤ i → i < cfg.vectorRegs →
    0 ≤ cfg.physical i h ∧ cfg.physical i h < n
  temp : ∀ h < cfg.halves, 0 ≤ cfg.physical cfg.tempReg h ∧ cfg.physical cfg.tempReg h < n

section
variable {cfg : Config} {n h : Nat}

theorem Maps.phys (maps : cfg.Maps n) (half : h < cfg.halves) {r : Reg} (usable : cfg.Usable r) :
    (cfg.phys r h).InFile n :=
  ⟨rfl, maps.usable h half r.index usable.2.1 usable.2.2⟩

theorem Maps.inFile_temp (maps : cfg.Maps n) (half : h < cfg.halves) : (cfg.temp h).InFile n :=
  ⟨rfl, maps.temp h half⟩

/-- A half of a source that was checked. The upper half of memory is checked once more, as it may
lie outside the window. -/
theorem Maps.vectorIn_half (maps : cfg.Maps n) (half : h < cfg.halves) {o o' : Operand}
    (word : o.Word) (ok : cfg.checkVectorSource o = .ok ()) (found : cfg.half o h = .ok o') :
    o'.VectorIn n := by
  cases o with
  | reg r =>
    obtain rfl := Except.ok.inj found
    have usable := usable_of_checkVector ok
    simp only [usable.1, if_true]
    exact maps.phys half usable
  | imm i => cases ok
  | mem m =>
    have inside := inRange_of_checkMem word ok
    simp only [Config.half, Mem.offset] at found
    split at found
    · obtain rfl := Except.ok.inj found
      exact inside
    split at found
    · next passed =>
      obtain rfl := Except.ok.inj found
      have wrapped : wrap64 (m.disp.value + h * cfg.physBytes) < 2 ^ 63 := by
        exact Int.bmod_lt (by decide)
      obtain ⟨aligned, least, most⟩ := Disp.inRange_of_check wrapped passed
      exact ⟨inside.base, inside.index, aligned, least, most⟩
    · cases found

/-- Both sides of a move that was checked. -/
theorem of_checkMove {register : Reg → Except Error Unit} (source : Operand → Except Error Unit)
    (registers : ∀ r, register r = source (.reg r)) (memory : ∀ m, checkMem m = source (.mem m))
    {dst src : Operand} (ok : checkMove register source dst src = .ok ()) :
    source dst = .ok () ∧ source src = .ok () := by
  cases dst with
  | reg d =>
    obtain ⟨_, first, second⟩ := bind_eq_ok.mp ok
    exact ⟨registers d ▸ first, second⟩
  | mem d =>
    obtain ⟨_, first, second⟩ := bind_eq_ok.mp ok
    refine ⟨memory d ▸ first, ?_⟩
    cases src with
    | reg s => exact registers s ▸ second
    | mem m => cases second
    | imm i => cases second
  | imm i => cases ok

end

end Config

/-! ## Lowering -/

section
variable {n h : Nat} {d x t : Reg} {y : Operand}

theorem Route.Part.inRange {cap : Capability} {c : Op} {e : Elem} {p : Primitive}
    (part : Route.Part cap c e d x y t p) (dst : d.InFile n) (first : x.InFile n)
    (second : y.VectorIn n) (temp : t.InFile n) : p.InRange n := by
  cases part with
  | load => exact ⟨temp, second⟩
  | extreme bound supported => exact ⟨temp, first, second⟩
  | compare orders native left right =>
    refine ⟨dst, ?_, ?_⟩
    · rcases left with rfl | rfl | rfl
      · exact first
      · exact temp
      · exact second
    · rcases right with rfl | rfl
      · exact second
      · exact first
  | complement => exact ⟨dst, dst⟩

theorem Capability.ComplementPart.inRange {p : Primitive}
    (part : Capability.ComplementPart d x y t p) (dst : d.InFile n) (first : x.InFile n)
    (second : y.VectorIn n) (temp : t.InFile n) : p.InRange n := by
  cases part with
  | complement place =>
    rcases place with rfl | rfl
    · exact ⟨dst, first⟩
    · exact ⟨temp, first⟩
  | join plain place =>
    rcases place with rfl | rfl
    · exact ⟨dst, dst, second⟩
    · exact ⟨dst, temp, second⟩

end

namespace Capability

open Emission Config

theorem checkSources_parts {cfg : Config} {dst s1 : Reg} {s2 : Operand}
    (ok : cfg.checkSources dst s1 s2 = .ok ()) :
    cfg.Usable dst ∧ cfg.Usable s1 ∧ cfg.checkVectorSource s2 = .ok () := by
  obtain ⟨_, first, rest⟩ := bind_eq_ok.mp ok
  obtain ⟨_, second, third⟩ := bind_eq_ok.mp rest
  exact ⟨usable_of_checkVector first, usable_of_checkVector second, third⟩

/-- Whatever the operands of an instruction are, its primitives are in range. -/
theorem lower_inRange {cap : Capability} {n : Nat} (maps : cap.config.Maps n)
    {i : Instr LabelRef} (words : ∀ o ∈ i.operands, o.Word) :
    ∀ p ∈ (cap.lower i).items, p.InRange n := by
  have only {o : Operand} (operands : i.operands = [o]) : o.Word :=
    words o (operands ▸ List.mem_singleton_self o)
  intro p member
  cases (cap.lower_lowered i).items p member with
  | @mov dst src d s h passed half into source =>
    have left : dst.Word := words dst List.mem_cons_self
    have right : src.Word := words src (List.mem_cons_of_mem _ List.mem_cons_self)
    obtain ⟨written, read⟩ := of_checkMove cap.config.checkVectorSource (fun _ => rfl)
      (fun _ => rfl) passed
    exact ⟨maps.vectorIn_half half left written into, maps.vectorIn_half half right read source⟩
  | logic passed half source | arith _ passed half source | shiftEach _ passed half source =>
    obtain ⟨into, first, second⟩ := checkSources_parts passed
    exact ⟨maps.phys half into, maps.phys half first,
      maps.vectorIn_half half (only rfl) second source⟩
  | complement passed half source part | compare _ passed half source part =>
    obtain ⟨into, first, second⟩ := checkSources_parts passed
    exact part.inRange (maps.phys half into) (maps.phys half first)
      (maps.vectorIn_half half (only rfl) second source) (maps.inFile_temp half)
  | not into source half =>
    exact ⟨maps.phys half (usable_of_checkVector into), maps.phys half (usable_of_checkVector source)⟩
  | shift supported into source counted half =>
    refine ⟨maps.phys half (usable_of_checkVector into),
      maps.phys half (usable_of_checkVector source), ?_⟩
    rcases counted with ⟨i, rfl, checked⟩ | ⟨m, rfl, checked⟩
    · exact Imm.inRange_of_check (only rfl) checked
    · exact inRange_of_checkMem (only rfl) checked
  | merge into passed half source =>
    have usable := usable_of_checkVector into
    exact ⟨maps.phys half usable, maps.vectorIn_half half (only rfl) passed source,
      maps.phys half (usable_mask usable)⟩
  | join passed several =>
    -- a register with no single half has a second one
    have halves := maps.halves
    have second : 1 < cap.config.halves := by omega
    have usable := usable_of_checkVector passed
    exact ⟨maps.inFile_temp halves, maps.phys halves usable, maps.phys second usable⟩
  | maskJump passed place =>
    rcases place with rfl | rfl
    · exact maps.phys maps.halves (usable_of_checkVector passed)
    · exact maps.inFile_temp maps.halves
  | @movBase dst src passed =>
    have left : dst.Word := words dst List.mem_cons_self
    have right : src.Word := words src (List.mem_cons_of_mem _ List.mem_cons_self)
    obtain ⟨into, source⟩ := of_checkMove checkBaseSource (fun _ => rfl) (fun _ => rfl) passed
    exact ⟨baseIn_of_checkBaseSource left into, baseIn_of_checkBaseSource right source⟩
  | arithBase into source =>
    exact ⟨inBase_of_checkBase into, baseIn_of_checkBaseSource (only rfl) source⟩
  | shiftBase into counted =>
    exact ⟨inBase_of_checkBase into, Imm.inRange_of_check (only rfl) counted⟩
  | @compareJump x y cond target left right known =>
    refine ⟨?_, inBase_of_checkBase left, baseIn_of_checkBaseSource (only rfl) right⟩
    cases cond with
    | other code => exact absurd rfl (known code)
    | _ => decide
  | jump | bind => trivial

end Capability

/-! ## Calls of the assembler -/

section
variable {σ : Type}

/-- The backend that also keeps what it was asked for, in order. -/
def Backend.logged (b : Backend σ) : Backend (σ × List Primitive) where
  toCapability := b.toCapability
  size s := b.size s.1
  newLabel name s := ((b.newLabel name s.1).1, (b.newLabel name s.1).2, s.2)
  issue p s := ((b.issue p s.1).1, (b.issue p s.1).2, s.2 ++ [p])
  finish s := ((b.finish s.1).1, (b.finish s.1).2, s.2)

/-- The assembler without what its backend was asked for. -/
def Assembler.unlogged (a : Assembler (σ × List Primitive)) : Assembler σ :=
  ⟨a.state.1, a.count, a.error?⟩

/-- A call of an assembler that can reach its backend. -/
inductive Use where
  | newLabel (name : RawText)
  | instr (i : Instr LabelRef)
  | code

namespace Use

/-- The assembler after a call, however the call ends. -/
def run (b : Backend σ) (a : Assembler σ) : Use → Assembler σ
  | .newLabel name => (a.newLabel b name).2
  | .instr i => (a.issue b i).2
  | .code => (a.code b).2

/-- The assembler after calls in order. -/
def runAll (b : Backend σ) (a : Assembler σ) (uses : List Use) : Assembler σ := uses.foldl (run b) a

/-- The values in the operands of a call are values of 64 bits. -/
def Words : Use → Prop
  | .instr i => ∀ o ∈ i.operands, o.Word
  | _ => True

end Use

namespace Backend

/-- Keeping what was asked for changes nothing else. -/
theorem issueAll_logged (b : Backend σ) (ps : List Primitive) (s : σ × List Primitive) :
    (b.logged.issueAll ps s).1 = (b.issueAll ps s.1).1 ∧
      (b.logged.issueAll ps s).2.1 = (b.issueAll ps s.1).2 := by
  induction ps generalizing s with
  | nil => exact ⟨rfl, rfl⟩
  | cons p ps ih =>
    rw [issueAll, issueAll]
    have asked : b.logged.issue p s = ((b.issue p s.1).1, (b.issue p s.1).2, s.2 ++ [p]) := rfl
    rw [asked]
    rcases b.issue p s.1 with ⟨_ | _, s'⟩
    · exact ⟨rfl, rfl⟩
    · exact ih (s', s.2 ++ [p])

/-- What was asked for is what was asked before and some of the primitives at hand. -/
theorem mem_of_issueAll_logged (b : Backend σ) {ps : List Primitive} {s : σ × List Primitive}
    {p : Primitive} (member : p ∈ (b.logged.issueAll ps s).2.2) : p ∈ s.2 ∨ p ∈ ps := by
  induction ps generalizing s with
  | nil => exact .inl member
  | cons q ps ih =>
    rw [issueAll] at member
    have asked : b.logged.issue q s = ((b.issue q s.1).1, (b.issue q s.1).2, s.2 ++ [q]) := rfl
    rw [asked] at member
    clear asked
    have here : p ∈ s.2 ++ [q] → p ∈ s.2 ∨ p ∈ q :: ps := by
      intro found
      rcases List.mem_append.mp found with early | late
      · exact .inl early
      · exact .inr (List.mem_singleton.mp late ▸ List.mem_cons_self)
    revert member
    rcases b.issue q s.1 with ⟨_ | _, s'⟩
    · exact here
    · intro member
      rcases ih member with early | late
      · exact here early
      · exact .inr (List.mem_cons_of_mem q late)

end Backend

namespace Use

theorem unlogged_run (b : Backend σ) (a : Assembler (σ × List Primitive)) (u : Use) :
    (u.run b.logged a).unlogged = u.run b a.unlogged := by
  cases u with
  | newLabel name => rfl
  | instr i =>
    obtain ⟨s, count, error?⟩ := a
    cases error? with
    | some e => rfl
    | none =>
      obtain ⟨outcome, state⟩ := b.issueAll_logged (b.lower i).items s
      show (Assembler.issue b.logged _ i).2.unlogged = (Assembler.issue b _ i).2
      simp only [Assembler.issue, Assembler.unlogged]
      have same : b.logged.lower i = b.lower i := rfl
      rw [same, outcome]
      split <;> simp [state]
  | code =>
    obtain ⟨s, count, error?⟩ := a
    cases error? <;> rfl

theorem unlogged_runAll (b : Backend σ) (a : Assembler (σ × List Primitive)) (uses : List Use) :
    (runAll b.logged a uses).unlogged = runAll b a.unlogged uses := by
  induction uses generalizing a with
  | nil => rfl
  | cons u uses ih =>
    have rest := ih (u.run b.logged a)
    rw [unlogged_run] at rest
    exact rest

/-- A call asks for what its instruction lowers to, and for nothing more. -/
theorem asked_of_run (b : Backend σ) {a : Assembler (σ × List Primitive)} {u : Use} {p : Primitive}
    (asked : p ∈ (u.run b.logged a).state.2) :
    p ∈ a.state.2 ∨ ∃ i, u = .instr i ∧ p ∈ (b.lower i).items := by
  obtain ⟨s, count, error?⟩ := a
  cases u with
  | newLabel name => exact .inl asked
  | instr i =>
    cases error? with
    | some e => exact .inl asked
    | none =>
      have state : ((Assembler.issue b.logged ⟨s, count, none⟩ i).2).state
          = (b.logged.issueAll (b.lower i).items s).2 := by
        simp only [Assembler.issue]
        split <;> rfl
      rw [run, state] at asked
      rcases b.mem_of_issueAll_logged asked with early | late
      · exact .inl early
      · exact .inr ⟨i, rfl, late⟩
  | code =>
    cases error? with
    | some e => exact .inl asked
    | none => exact .inl asked

/-- If what was asked for is in range, so it is after any calls. -/
theorem inRange_runAll {b : Backend σ} {n : Nat} (maps : b.config.Maps n) {uses : List Use}
    (words : ∀ u ∈ uses, u.Words) {a : Assembler (σ × List Primitive)}
    (before : ∀ p ∈ a.state.2, p.InRange n) :
    ∀ p ∈ (runAll b.logged a uses).state.2, p.InRange n := by
  induction uses generalizing a with
  | nil => exact before
  | cons u uses ih =>
    obtain ⟨here, later⟩ := List.forall_mem_cons.1 words
    refine ih later fun p asked => ?_
    rcases asked_of_run b asked with early | ⟨i, rfl, lowered⟩
    · exact before p early
    · exact Capability.lower_inRange maps here p lowered

end Use

end

/-! ## Tables of the encoders -/

/-- The general register of a base register is found. -/
theorem Reg.InBase.general? {r : Reg} (inside : r.InBase) : ∃ g, Msa.general? r.index = some g := by
  obtain ⟨base, least, most⟩ := inside
  apply Msa.general?_of_checkBase
  rw [Config.checkBase, if_neg (by simp [base]), if_neg (by omega)]

theorem Mem.InRange.addressable {m : Mem} (inside : m.InRange) : (X86.Rm.mem m).Addressable := by
  obtain ⟨base, index, _, least, most⟩ := inside
  refine ⟨base.2, fun r given => ?_, least, by omega⟩
  obtain ⟨⟨kind, low, high⟩, other⟩ := index r given
  refine ⟨low, high, fun stack => other ?_⟩
  cases r
  simp_all [Reg.stack, Reg.base]

theorem Primitive.mem_inRange {p : Primitive} {n : Nat} (inside : p.InRange n) {m : Mem}
    (operand : .mem m ∈ p.operands) : m.InRange := by
  cases p with
  | move dst src | moveBase dst src =>
    rcases List.mem_cons.mp operand with rfl | late
    · exact inside.1
    · obtain rfl := List.mem_singleton.mp late
      exact inside.2
  | logic op d x y | arith op e d x y | shift op e d x y | shiftEach op e d x y
  | compare op e d x y | compareJump c x y target =>
    obtain rfl := List.mem_singleton.mp operand
    exact inside.2.2
  | merge d y mask =>
    obtain rfl := List.mem_singleton.mp operand
    exact inside.2.1
  | arithBase op d y =>
    obtain rfl := List.mem_singleton.mp operand
    exact inside.2
  | _ => cases operand

/-- Whatever is asked of an assembler, with whatever operands, every operand of what it asks of its
backend is in range, and so the tables that the encoders read unchecked hold what is looked up in
them: the general registers, and the bytes of an address. Keeping a log of the requests changes
nothing that the assembler does. -/
theorem requests_inRange {σ : Type} (b : Backend σ) {n : Nat} (maps : b.config.Maps n) (s : σ)
    (uses : List Use) (words : ∀ u ∈ uses, u.Words) :
    let a := Use.runAll b.logged (.start (s, [])) uses
    a.unlogged = Use.runAll b (.start s) uses ∧
      ∀ p ∈ a.state.2, p.InRange n ∧ ∀ m, .mem m ∈ p.operands →
        (∃ g, Msa.general? m.base.index = some g) ∧
          (∀ r ∈ m.index, ∃ g, Msa.general? r.index = some g) ∧ (X86.Rm.mem m).Addressable := by
  intro a
  refine ⟨Use.unlogged_runAll b _ uses, fun p asked => ?_⟩
  have inside := Use.inRange_runAll maps words (List.forall_mem_nil _) p asked
  refine ⟨inside, fun m operand => ?_⟩
  have memory := Primitive.mem_inRange inside operand
  exact ⟨memory.base.general?, fun r given => (memory.index r given).1.general?, memory.addressable⟩

/-- A comparison that takes the temporary in both halves of its memory operand, one whose upper half
leaves the widest window, and a register that is not there. -/
theorem requests_inRange_mips :
    let cfg := Config.mips .mips64 "128x2" 2 64 64
    let far : Mem := .indexed (.base 3) (.base 5) ⟨0x7FFC, .dg⟩
    let last : Mem := .plain (.base 4) ⟨0x7FFFFFFC, .dv⟩
    let uses : List Use := [.instr (.compare .cgt .s32 (.xmm 1) (.xmm 13) (.mem far)),
      .instr (.mov (.reg (.xmm 2)) (.mem last)), .instr (.not (.xmm 99) (.xmm 0)), .code]
    let a := Use.runAll (Msa.backend cfg).logged (.start (Buffer.empty, [])) uses
    cfg.Maps 32 ∧ (∀ u ∈ uses, u.Words) ∧ a.state.2.length = 5 ∧
      ∀ p ∈ a.state.2, p.InRange 32 := by
  intro cfg far last uses a
  have maps : cfg.Maps 32 := by
    refine ⟨by decide, ?_, ?_⟩
    · intro h half i least most
      simp only [cfg, Config.mips] at half most ⊢
      omega
    · intro h half
      simp only [cfg, Config.mips] at half ⊢
      omega
  have words : ∀ u ∈ uses, u.Words := by
    simp [uses, Use.Words, Instr.operands, Operand.Word, far, last, Mem.indexed, Mem.plain]
  have ⟨_, inside⟩ := requests_inRange (Msa.backend cfg) maps Buffer.empty uses words
  exact ⟨maps, words, by decide +kernel, fun p asked => (inside p asked).1⟩

end LaneAsm
