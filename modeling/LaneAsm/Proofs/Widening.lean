import LaneAsm.Proofs.Memory
import LaneAsm.Proofs.Scalar
import LaneAsm.Proofs.Splitting

/-!
One wide register or two narrow ones. A target that holds a logical register in two physical
registers of half the width computes what a target with one physical register of the full width
does: run on machines that agree half by half, every program that ends well on the wide target ends
well on the narrow one, and the machines still agree (`widening_consistent`).
-/
namespace LaneAsm

/-- One target holds a logical register in the physical register of its number, another in two of
half its width; base registers and addresses are alike, and the narrow target keeps its registers
apart. -/
structure Widens (wide narrow : Config) : Prop where
  single : wide.halves = 1
  identity : ∀ i, wide.Held i → wide.physical i 0 = i
  double : narrow.halves = 2
  width : wide.physBytes = 2 * narrow.physBytes
  positive : 0 < narrow.physBytes
  whole : 8 ∣ narrow.physBytes
  baseBits : narrow.baseBits = wide.baseBits
  addressBits : narrow.addressBits = wide.addressBits
  separated : narrow.Separated

/-- Two machines have the same memory and base registers, and every logical register of the first is
made of its two halves on the second. -/
structure Agree (narrow : Config) (m n : Machine) : Prop where
  bases : n.bases = m.bases
  memory : n.memory = m.memory
  vectors : ∀ i : Int, 0 ≤ i → i < narrow.vectorRegs → ∃ v lo hi, m.vectorAt? i = some v ∧
    n.vectorAt? (narrow.physical i 0) = some lo ∧ n.vectorAt? (narrow.physical i 1) = some hi ∧
    Bytes.SplitsInto narrow.physBytes v lo hi

/-- A memory that addresses reach and a 64-bit size describes. -/
structure Fits (cfg : Config) (memory : Bytes) : Prop where
  described : memory.size < 2 ^ 64
  reached : memory.size ≤ Machine.addresses cfg

theorem Widens.sameBase {wide narrow : Config} (widens : Widens wide narrow) :
    wide.SameBase narrow :=
  ⟨widens.baseBits, widens.addressBits⟩

theorem Widens.physical_reg {wide narrow : Config} (widens : Widens wide narrow) {r : Reg}
    (usable : wide.Usable r) : wide.physical r.index 0 = r.index :=
  widens.identity _ (.inl usable.2)

/-- The wide target needs no temporary, or has one of its own that is no register compared. -/
def Spares (wide narrow : Config) (limits : Limits) : Prop :=
  limits = ⟨false, false⟩ ∨
    wide.Separated ∧ ¬(0 ≤ wide.tempReg ∧ wide.tempReg < narrow.vectorRegs)

/-- The first registers of a machine keep their values but for register `d`, which gets one. -/
structure Updates (regs : Nat) (m m' : Machine) (d : Int) (v : Bytes) : Prop where
  here : m'.vectorAt? d = some v
  others : ∀ k : Int, 0 ≤ k → k < regs → k ≠ d → m'.vectorAt? k = m.vectorAt? k
  bases : m'.bases = m.bases
  memory : m'.memory = m.memory

namespace Agree

open Machine

variable {wide narrow : Config} (widens : Widens wide narrow) {m n : Machine}
  (agree : Agree narrow m n)

include widens agree

theorem address_eq (x : Mem) : n.address narrow x = m.address wide x := by
  rw [address_congr agree.bases]
  simp only [address, widens.addressBits]

/-- The upper half of an access lies one narrow register further on. -/
theorem address_upper (fits : Fits wide m.memory) {x z : Mem} {a : UInt64}
    (moved : if 1 = 0 then z = x else x.offset ((1 : Nat) * narrow.physBytes) = .ok z)
    (found : m.address wide x = .ok a) (inside : a.toNat + 2 * narrow.physBytes ≤ m.memory.size) :
    ∃ b, n.address narrow z = .ok b ∧ b.toNat = a.toNat + narrow.physBytes := by
  have positive := widens.positive
  have reached := fits.reached
  have same : addresses narrow = addresses wide := by simp only [addresses, widens.addressBits]
  have moved : x.offset narrow.physBytes = .ok z := by simpa using moved
  exact address_offset moved ((agree.address_eq widens x).trans found) (by omega)

/-- A source reads on the wide machine what its halves read on the narrow one. -/
theorem source_splits (fits : Fits wide m.memory) {o y : Operand}
    (known : wide.UsableSource o) (usable : narrow.UsableSource o) (upper : narrow.half o 1 = .ok y) :
    Splits narrow.physBytes ((m.reader wide 0).source o) ((n.reader narrow 0).source o)
      ((n.reader narrow 1).source o) := by
  intro w read
  cases o with
  | reg r =>
    rw [reader_reg usable.1, widens.physical_reg known] at read
    obtain ⟨v, lo, hi, whole, first, second, halves⟩ := agree.vectors _ usable.2.1 usable.2.2
    obtain rfl := Option.some.inj (whole.symm.trans read)
    exact ⟨lo, hi, (reader_reg usable.1).trans first, (reader_reg usable.1).trans second, halves⟩
  | mem x =>
    obtain ⟨z, rfl, moved⟩ := Config.half_mem upper
    have described : n.memory.size < 2 ^ 64 := agree.memory ▸ fits.described
    have positive := widens.positive
    obtain ⟨a, found, inside, rfl⟩ := (load_eq_ok fits.described).mp (toOption_eq_some.mp read)
    rw [widens.width] at inside ⊢
    obtain ⟨b, next, moved⟩ := agree.address_upper widens fits moved found inside
    refine ⟨m.memory.extract a.toNat (a.toNat + narrow.physBytes),
      m.memory.extract (a.toNat + narrow.physBytes) (a.toNat + 2 * narrow.physBytes), ?_, ?_, ?_⟩
    · exact toOption_eq_some.mpr ((load_eq_ok described).mpr
        ⟨a, (agree.address_eq widens x).trans found, by rw [agree.memory]; omega,
          by rw [agree.memory]⟩)
    · rw [reader_of_half upper]
      refine toOption_eq_some.mpr ((load_eq_ok described).mpr ⟨b, next, ?_, ?_⟩)
      · rw [agree.memory]
        omega
      · rw [agree.memory, moved]
        congr 1
        omega
    · refine ⟨?_, ?_, ?_⟩
      · rw [Array.extract_append_extract]
        congr 1 <;> omega
      · simp
        omega
      · simp
        omega
  | imm i => cases usable

theorem count_eq (e : Elem) (o : Operand) (h : Nat) :
    (n.reader narrow h).count e o = (m.reader wide 0).count e o := by
  have same : n.countOf narrow e o = m.countOf wide e o := by
    cases o <;> simp only [countOf, load,
      locate_eq_of_same agree.bases agree.memory widens.sameBase, agree.memory]
  simp only [reader, same]

/-- What the primitives of an instruction do on the wide target. -/
theorem updates_wide {limits : Limits}
    (spares : Spares wide narrow limits) {i : Instr LabelRef} {d : Reg} {ps : List Primitive}
    {m₁ : Machine} {j : LabelRef} (formed : i.Formed) (dest : i.dest? = some d)
    (accepted : (Program.backend wide limits).toCapability.Accepts i)
    (usable : ∀ o ∈ i.sources, narrow.UsableSource o)
    (lowered : (Program.backend wide limits).toCapability.lowerHalf 0 i = .ok ps)
    (run : m.steps wide ps = .ok (m₁, j)) :
    j = none ∧ ∃ v, i.value? (m.reader wide 0) = some v ∧
      Updates narrow.vectorRegs m m₁ d.index v := by
  have place : wide.physical d.index 0 = d.index := widens.physical_reg (accepted.dest dest)
  rcases spares with rfl | ⟨separated, apart⟩
  · obtain ⟨still, v, value, written⟩ :=
      writes_half dest accepted (direct_of_complete formed accepted) lowered run
    rw [place] at written
    exact ⟨still, v, value, written.here, fun k _ _ other => written.others k other, written.bases,
      written.memory⟩
  · have half : 0 < wide.halves := by
      rw [widens.single]
      exact Nat.one_pos
    have whole : 8 ∣ wide.physBytes := by
      rw [widens.width]
      exact Nat.dvd_mul_left_of_dvd widens.whole 2
    have sized : ∀ o ∈ i.sources, ∀ u, (m.reader wide 0).source o = some u →
        u.size = wide.physBytes := by
      intro o member u read
      refine size_of_source (accepted.sources o member) ?_ read
      rintro r rfl u present
      obtain ⟨_, inside⟩ : narrow.Usable r := usable _ member
      obtain ⟨v, lo, hi, here, _, _, halves⟩ := agree.vectors _ inside.1 inside.2
      rw [widens.physical_reg (accepted.sources _ member), here] at present
      rw [← Option.some.inj present, halves.joined, Array.size_append, halves.low, halves.high,
        widens.width, Nat.two_mul]
    obtain ⟨v, value⟩ :=
      value_of_steps separated half formed dest accepted lowered sized whole run
    obtain ⟨m₂, left⟩ :=
      leaves_half separated half formed dest accepted lowered sized whole value
    obtain ⟨rfl, rfl⟩ := Prod.mk.inj (Except.ok.inj ((steps_of_run left.runs).symm.trans run))
    have here := left.here
    have others := left.others
    rw [place] at here others
    rw [widens.identity _ (.inr rfl)] at others
    refine ⟨rfl, v, value, here, ?_, congrArg Prod.fst left.rest, congrArg Prod.snd left.rest⟩
    intro k low high other
    refine others k other ?_
    rintro rfl
    exact apart ⟨low, high⟩

/-- What the primitives of both halves do on the narrow target. The second half reads what was there
before the first one ran, since the first one wrote only to registers of its own. -/
theorem updates_halves {limits : Limits} {i : Instr LabelRef} {d : Reg}
    {ps qs : List Primitive} {lo hi : Bytes} (formed : i.Formed) (dest : i.dest? = some d)
    (accepted : (Program.backend narrow limits).toCapability.Accepts i)
    (lower : (Program.backend narrow limits).toCapability.lowerHalf 0 i = .ok ps)
    (upper : (Program.backend narrow limits).toCapability.lowerHalf 1 i = .ok qs)
    (first : i.value? (n.reader narrow 0) = some lo)
    (second : i.value? (n.reader narrow 1) = some hi) :
    ∃ n₁, n.steps narrow (ps ++ qs) = .ok (n₁, none) ∧
      n₁.vectorAt? (narrow.physical d.index 0) = some lo ∧
      n₁.vectorAt? (narrow.physical d.index 1) = some hi ∧
      (∀ k : Int, 0 ≤ k → k < narrow.vectorRegs → k ≠ d.index → ∀ h < 2,
        n₁.vectorAt? (narrow.physical k h) = n.vectorAt? (narrow.physical k h)) ∧
      n₁.bases = n.bases ∧ n₁.memory = n.memory := by
  have separated := widens.separated
  have usable : narrow.Usable d := accepted.dest dest
  have sources : ∀ o ∈ i.sources, narrow.UsableSource o := accepted.sources
  have zero : 0 < narrow.halves := widens.double ▸ Nat.zero_lt_two
  have one : 1 < narrow.halves := widens.double ▸ Nat.one_lt_two
  have two {h : Nat} (half : h < 2) : h < narrow.halves := widens.double ▸ half
  -- a register of one half is not among those the other half writes
  have apart {k : Int} (held : narrow.Held k) {h g : Nat} (left : h < 2) (right : g < 2)
      (other : k ≠ d.index ∨ h ≠ g) : narrow.physical k h ≠ narrow.physical d.index g := by
    intro same
    obtain ⟨index, half⟩ :=
      separated.injective _ _ held (.inl usable.2) h (two left) g (two right) same
    exact other.elim (· index) (· half)
  have spare {k : Int} (low : 0 ≤ k) (high : k < narrow.vectorRegs) {h g : Nat} (left : h < 2)
      (right : g < 2) : narrow.physical k h ≠ narrow.physical narrow.tempReg g := by
    intro same
    obtain ⟨index, _⟩ :=
      separated.injective _ _ (.inl ⟨low, high⟩) (.inr rfl) h (two left) g (two right) same
    exact separated.temporary (index ▸ ⟨low, high⟩)
  have sized {h : Nat} (half : h < 2) : ∀ o ∈ i.sources, ∀ u,
      (n.reader narrow h).source o = some u → u.size = narrow.physBytes := by
    intro o member u read
    refine size_of_source (sources o member) ?_ read
    rintro r rfl u present
    obtain ⟨_, inside⟩ : narrow.Usable r := sources _ member
    obtain ⟨v, lo, hi, _, first, second, halves⟩ := agree.vectors _ inside.1 inside.2
    match h with
    | 0 => exact Option.some.inj (first.symm.trans present) ▸ halves.low
    | 1 => exact Option.some.inj (second.symm.trans present) ▸ halves.high
  obtain ⟨n₁, left⟩ := leaves_half separated zero formed dest accepted lower
    (sized Nat.zero_lt_two) widens.whole first
  have bases : n₁.bases = n.bases := congrArg Prod.fst left.rest
  have memory : n₁.memory = n.memory := congrArg Prod.snd left.rest
  have reads : ∀ o ∈ i.sources, (n₁.reader narrow 1).source o = (n.reader narrow 1).source o :=
    fun o member => source_congr bases memory (fun r register => left.others _
      (apart (.inl register.2) Nat.one_lt_two Nat.zero_lt_two (.inr Nat.one_ne_zero))
      (spare register.2.1 register.2.2 Nat.one_lt_two Nat.zero_lt_two)) (sources o member)
  have value : i.value? (n₁.reader narrow 1) = some hi := by
    rw [Instr.value?_congr reads fun e o => ?_, second]
    simp only [reader, countOf_congr bases memory]
  obtain ⟨n₂, right⟩ := leaves_half separated one formed dest accepted upper
    (fun o member u read => sized Nat.one_lt_two o member u (reads o member ▸ read))
    widens.whole value
  refine ⟨n₂, ?_, ?_, right.here, ?_, ?_, ?_⟩
  · rw [steps_append (steps_of_run left.runs)]
    exact steps_of_run right.runs
  · have kept := right.others (narrow.physical d.index 0)
      (apart (.inl usable.2) Nat.zero_lt_two Nat.one_lt_two (.inr Nat.zero_ne_one))
      (spare usable.2.1 usable.2.2 Nat.zero_lt_two Nat.one_lt_two)
    exact kept.trans left.here
  · intro k low high other h half
    have kept := right.others (narrow.physical k h)
      (apart (.inl ⟨low, high⟩) half Nat.one_lt_two (.inl other))
      (spare low high half Nat.one_lt_two)
    exact kept.trans (left.others (narrow.physical k h)
      (apart (.inl ⟨low, high⟩) half Nat.zero_lt_two (.inl other))
      (spare low high half Nat.zero_lt_two))
  · exact (congrArg Prod.fst right.rest).trans bases
  · exact (congrArg Prod.snd right.rest).trans memory

theorem values_split (fits : Fits wide m.memory) {limits limits' : Limits} {i : Instr LabelRef}
    (formed : i.Formed) {qs : List Primitive}
    (known : (Program.backend wide limits).toCapability.Accepts i)
    (accepted : (Program.backend narrow limits').toCapability.Accepts i)
    (upper : (Program.backend narrow limits').toCapability.lowerHalf 1 i = .ok qs) :
    Splits narrow.physBytes (i.value? (m.reader wide 0)) (i.value? (n.reader narrow 0))
      (i.value? (n.reader narrow 1)) := by
  refine Instr.value?_splits formed widens.whole accepted.valid ?_ ?_
  · intro o member
    obtain ⟨y, found⟩ := Capability.half_of_lowerHalf upper o member
    exact agree.source_splits widens fits (known.sources o member) (accepted.sources o member) found
  · intro e o count counted
    rw [agree.count_eq widens, agree.count_eq widens]
    exact ⟨counted, counted⟩

section
variable {limits limits' : Limits} {i : Instr LabelRef} {m₁ : Machine} {j : LabelRef}
  (fits : Fits wide m.memory)
  (lowered : ((Program.backend wide limits).lower i).outcome = .ok ())
  (lowered' : ((Program.backend narrow limits').lower i).outcome = .ok ())
  (run : m.steps wide ((Program.backend wide limits).lower i).items = .ok (m₁, j))
include fits lowered lowered' run

/-- An instruction that writes a vector register. -/
theorem after_dest (spares : Spares wide narrow limits) (formed : i.Formed) {d : Reg}
    (dest : i.dest? = some d) :
    ∃ n₁, n.steps narrow ((Program.backend narrow limits').lower i).items = .ok (n₁, j) ∧
      Agree narrow m₁ n₁ ∧ Fits wide m₁.memory := by
  have vector := Capability.halved_of_dest dest
  obtain ⟨accepted, whole⟩ := Capability.lower_one widens.single vector lowered
  obtain ⟨accepted', ps, qs, lower, upper, items⟩ :=
    Capability.lower_two widens.double vector lowered'
  rw [items]
  have usable : narrow.Usable d := accepted'.dest dest
  obtain ⟨rfl, v, value, updated⟩ := agree.updates_wide widens spares formed dest accepted
    accepted'.sources whole run
  obtain ⟨lo, hi, first, second, halves⟩ :=
    agree.values_split widens fits formed accepted accepted' upper v value
  obtain ⟨n₁, run', low, high, others, bases, memory⟩ :=
    agree.updates_halves widens formed dest accepted' lower upper first second
  refine ⟨n₁, run', ⟨?_, ?_, ?_⟩, updated.memory ▸ fits⟩
  · rw [bases, updated.bases, agree.bases]
  · rw [memory, updated.memory, agree.memory]
  · intro k above below
    by_cases same : k = d.index
    · subst same
      exact ⟨v, lo, hi, updated.here, low, high, halves⟩
    · rw [updated.others k above below same, others k above below same 0 (by omega),
        others k above below same 1 (by omega)]
      exact agree.vectors k above below

/-- A vector register stored to memory. -/
theorem after_store {x : Mem} {o : Operand} (store : i = .mov (.mem x) o) :
    ∃ n₁, n.steps narrow ((Program.backend narrow limits').lower i).items = .ok (n₁, j) ∧
      Agree narrow m₁ n₁ ∧ Fits wide m₁.memory := by
  subst store
  obtain ⟨known, whole⟩ := Capability.lower_one widens.single rfl lowered
  obtain ⟨accepted, ps, qs, lower, upper, items⟩ := Capability.lower_two widens.double rfl lowered'
  obtain ⟨_, _, known⟩ := bind_eq_ok.mp known
  obtain ⟨_, _, accepted⟩ := bind_eq_ok.mp accepted
  cases o with
  | mem y => cases accepted
  | imm i => cases accepted
  | reg r =>
    have usable : narrow.Usable r := Config.usable_of_checkVector accepted
    obtain ⟨x₀, same₀, whole⟩ := Capability.lowerHalf_store usable.1 whole
    obtain ⟨x₁, same₁, rfl⟩ := Capability.lowerHalf_store usable.1 lower
    obtain ⟨z, half, rfl⟩ := Capability.lowerHalf_store usable.1 upper
    obtain ⟨_, same, moved⟩ := Config.half_mem half
    cases same₀
    cases same₁
    cases same
    rw [whole] at run
    rw [items]
    obtain ⟨rfl, done⟩ := effect_of_steps rfl run
    obtain ⟨v, read, done⟩ := bind_eq_ok.mp done
    obtain ⟨a, found, inside, rfl⟩ := (store_eq_ok fits.described).mp done
    obtain ⟨_, lo, hi, here, first, second, rfl, low, high⟩ :=
      agree.vectors _ usable.2.1 usable.2.2
    have read : m.vectorAt? (wide.physical r.index 0) = some v := vector_eq_ok.mp read
    rw [widens.physical_reg (Config.usable_of_checkVector known), here] at read
    obtain rfl := Option.some.inj read
    have total : (lo ++ hi).size = 2 * narrow.physBytes := by
      rw [Array.size_append, low, high, Nat.two_mul]
    rw [total] at inside
    obtain ⟨b, next, further⟩ := agree.address_upper widens fits moved found inside
    have described : n.memory.size < 2 ^ 64 := agree.memory ▸ fits.described
    have lower : n.store narrow x lo =
        .ok { n with memory := n.memory.write a.toNat lo.toList } :=
      (store_eq_ok described).mpr ⟨a, (agree.address_eq widens x).trans found,
        by rw [agree.memory]; omega, rfl⟩
    have upper : { n with memory := n.memory.write a.toNat lo.toList }.store narrow z hi =
        .ok { n with memory := m.memory.write a.toNat (lo ++ hi).toList } := by
      refine (store_eq_ok ?_).mpr ⟨b, (address_congr rfl narrow z).trans next, ?_, ?_⟩
      · rw [Bytes.size_write]
        exact described
      · rw [Bytes.size_write, agree.memory]
        omega
      · rw [Array.toList_append, Bytes.write_append, agree.memory, further, Array.length_toList, low]
    have loaded : n.vector (narrow.phys r 0) = .ok lo := vector_eq_ok.mpr first
    have loaded' : { n with memory := n.memory.write a.toNat lo.toList }.vector (narrow.phys r 1) =
        .ok hi := vector_eq_ok.mpr second
    refine ⟨{ n with memory := m.memory.write a.toNat (lo ++ hi).toList }, ?_,
      ⟨agree.bases, rfl, agree.vectors⟩, ?_⟩
    · have stored : n.steps narrow [.move (.mem x) (.reg (narrow.phys r 0))] =
          .ok ({ n with memory := n.memory.write a.toNat lo.toList }, none) :=
        steps_single.mpr ⟨bind_eq_ok.mpr ⟨lo, loaded, lower⟩, rfl⟩
      exact (steps_append stored).trans
        (steps_single.mpr ⟨bind_eq_ok.mpr ⟨hi, loaded', upper⟩, rfl⟩)
    · exact ⟨by rw [Bytes.size_write]; exact fits.described,
        by rw [Bytes.size_write]; exact fits.reached⟩

/-- A jump on a mask. The narrow target joins the halves of the mask in its temporary. -/
theorem after_maskJump {src : Reg} {cond : MaskCond} {target : LabelRef}
    (jump : i = .maskJump src cond target) :
    ∃ n₁, n.steps narrow ((Program.backend narrow limits').lower i).items = .ok (n₁, j) ∧
      Agree narrow m₁ n₁ ∧ Fits wide m₁.memory := by
  subst jump
  obtain ⟨known, items⟩ := Capability.lower_maskJump lowered
  obtain ⟨passed, items'⟩ := Capability.lower_maskJump lowered'
  have single : (Program.backend wide limits).config.halves = 1 := widens.single
  have double : (Program.backend narrow limits').config.halves ≠ 1 := by
    rw [show (Program.backend narrow limits').config.halves = 2 from widens.double]
    decide
  rw [items, if_pos single] at run
  rw [items', if_neg double]
  obtain ⟨done, jumped⟩ := steps_single.mp run
  cases done
  obtain ⟨v, read, jumped⟩ := bind_eq_ok.mp jumped
  cases jumped
  have usable : narrow.Usable src := Config.usable_of_checkVector passed
  obtain ⟨_, lo, hi, here, first, second, rfl, low, high⟩ := agree.vectors _ usable.2.1 usable.2.2
  have read : m.vectorAt? (wide.physical src.index 0) = some v := vector_eq_ok.mp read
  rw [widens.physical_reg (Config.usable_of_checkVector known), here] at read
  obtain rfl := Option.some.inj read
  have same : lo.size = hi.size := low.trans high.symm
  have zero : 0 < narrow.halves := widens.double ▸ Nat.zero_lt_two
  have value : (executor narrow).binary (if cond = .full then .and else .orr) .u8
      (narrow.physical src.index 0) (.reg (narrow.phys src 1)) n =
      some (Array.zipWith (Lane.logicByte (if cond = .full then .and else .orr)) lo hi) := by
    have left : (executor narrow).vector n (narrow.physical src.index 0) = some lo := first
    have right : (executor narrow).source n (.reg (narrow.phys src 1)) = some hi := second
    rw [Executor.binary, left, Option.bind_some, right, Option.bind_some]
    cases cond <;> simp [Lanes.eval?, same]
  obtain ⟨n₁, step, written⟩ := realises_binary (fun _ => rfl) (fun _ => rfl) n _
    (widens.separated.known (.inr rfl) zero n) value
    (p := .logic (if cond = .full then .and else .orr) (narrow.temp 0) (narrow.phys src 0)
      (.reg (narrow.phys src 1)))
  have joined := steps_of_run (written.leaves (t := 0) step).runs
  have mask : n₁.vector (narrow.temp 0) = .ok _ := vector_eq_ok.mpr written.here
  refine ⟨n₁, ?_, ⟨?_, ?_, ?_⟩, fits⟩
  · refine (steps_append joined).trans
      (steps_single.mpr ⟨rfl, bind_eq_ok.mpr ⟨_, mask, ?_⟩⟩)
    rw [MaskCond.holds_joined cond same]
    rfl
  · exact (congrArg Prod.fst written.rest).trans agree.bases
  · exact (congrArg Prod.snd written.rest).trans agree.memory
  · intro k above below
    have kept {h : Nat} (half : h < narrow.halves) :
        n₁.vectorAt? (narrow.physical k h) = n.vectorAt? (narrow.physical k h) := by
      refine written.others _ fun same => ?_
      obtain ⟨index, _⟩ := widens.separated.injective _ _ (.inl ⟨above, below⟩) (.inr rfl) h half 0
        zero same
      exact widens.separated.temporary (index ▸ ⟨above, below⟩)
    rw [kept zero, kept (widens.double ▸ Nat.one_lt_two)]
    exact agree.vectors k above below

end

theorem after_scalar {i : Instr LabelRef} {p : Primitive} (single : Capability.single? i = some p)
    (fits : Fits wide m.memory) {m₁ : Machine} {j : LabelRef}
    (run : m.steps wide [p] = .ok (m₁, j)) :
    ∃ n₁, n.steps narrow [p] = .ok (n₁, j) ∧ Agree narrow m₁ n₁ ∧ Fits wide m₁.memory := by
  obtain ⟨done, jumped⟩ := steps_single.mp run
  obtain ⟨framed, jumped'⟩ :=
    scalar_frame agree.bases agree.memory widens.sameBase single done jumped
  refine ⟨_, steps_single.mpr ⟨framed.done, jumped'⟩, ⟨rfl, rfl, ?_⟩,
    ⟨framed.size ▸ fits.described, framed.size ▸ fits.reached⟩⟩
  simpa only [vectorAt?, framed.vectors] using agree.vectors

/-- Whatever the instruction, its block on the narrow target does what its block on the wide one
does. -/
theorem after_block {limits limits' : Limits} (spares : Spares wide narrow limits)
    {i : Instr LabelRef} (formed : i.Formed) (fits : Fits wide m.memory)
    (lowered : ((Program.backend wide limits).lower i).outcome = .ok ())
    (lowered' : ((Program.backend narrow limits').lower i).outcome = .ok ())
    {m₁ : Machine} {j : LabelRef}
    (run : m.steps wide ((Program.backend wide limits).toCapability.block i) = .ok (m₁, j)) :
    ∃ n₁, n.steps narrow ((Program.backend narrow limits').toCapability.block i) = .ok (n₁, j) ∧
      Agree narrow m₁ n₁ ∧ Fits wide m₁.memory := by
  have scalar {p : Primitive} (single : Capability.single? i = some p)
      (run : m.steps wide ((Program.backend wide limits).lower i).items = .ok (m₁, j)) :
      ∃ n₁, n.steps narrow ((Program.backend narrow limits').lower i).items = .ok (n₁, j) ∧
        Agree narrow m₁ n₁ ∧ Fits wide m₁.memory := by
    rw [Capability.lower_single single lowered] at run
    rw [Capability.lower_single single lowered']
    exact agree.after_scalar widens single fits run
  cases i with
  | mov dst src =>
    cases dst with
    | reg d => exact agree.after_dest widens fits lowered lowered' run spares formed rfl
    | mem x => exact agree.after_store widens fits lowered lowered' run rfl
    | imm k =>
      obtain ⟨_, passed, _⟩ := Emission.check_ok lowered
      cases passed
  | logic _ _ _ _ | not _ _ | arith _ _ _ _ _ | shift _ _ _ _ _ | shiftEach _ _ _ _ _
  | compare _ _ _ _ _ | merge _ _ =>
    exact agree.after_dest widens fits lowered lowered' run spares formed rfl
  | maskJump src cond target => exact agree.after_maskJump widens fits lowered lowered' run rfl
  | movBase _ _ | arithBase _ _ _ | shiftBase _ _ _ _ | compareJump _ _ _ _ | jump _ =>
    exact scalar rfl run
  | bind label =>
    cases run
    exact ⟨n, rfl, agree, fits⟩
  | unformed op => cases lowered

end Agree

/-- Machines that start from zero agree. -/
theorem Agree.init {wide narrow : Config} (widens : Widens wide narrow)
    (regs : narrow.vectorRegs ≤ 32) (memory : Bytes) :
    Agree narrow (.init wide memory) (.init narrow memory) where
  bases := rfl
  memory := rfl
  vectors i low high := by
    have known (cfg : Config) {k : Int} (inside : 0 ≤ k ∧ k < 32) :
        (Machine.init cfg memory).vectorAt? k = some (Bytes.zeros cfg.physBytes) := by
      have bound : k.toNat < 32 := by omega
      simp [Machine.vectorAt?, Machine.init, inside.1, bound]
    have lower := widens.separated.inside i (.inl ⟨low, high⟩) 0 (widens.double ▸ Nat.zero_lt_two)
    have upper := widens.separated.inside i (.inl ⟨low, high⟩) 1 (widens.double ▸ Nat.one_lt_two)
    refine ⟨_, _, _, known wide ?_, known narrow lower, known narrow upper, ?_, ?_, ?_⟩
    · omega
    · simp [Bytes.zeros, widens.width, Nat.two_mul]
    · simp [Bytes.zeros]
    · simp [Bytes.zeros]

/-- A program that runs to its end on the wide target runs to its end on the narrow one, given enough
steps, and leaves memory, base registers and all logical registers alike. -/
theorem widening_consistent {wide narrow : Config} (widens : Widens wide narrow)
    {limits limits' : Limits} (spares : Spares wide narrow limits) {is : List (Instr LabelRef)}
    (formed : ∀ i ∈ is, i.Formed) {a b : Assembler Program}
    (assembled : (Assembler.start .empty).issueAll (Program.backend wide limits) is = .ok a)
    (clean : a.error? = none)
    (assembled' : (Assembler.start .empty).issueAll (Program.backend narrow limits') is = .ok b)
    (clean' : b.error? = none) {m n : Machine} (agree : Agree narrow m n)
    (fits : Fits wide m.memory) {limit : Nat}
    (ok : (a.state.run wide limit m).outcome = .ok ()) :
    ∃ enough, ∀ limit' ≥ enough, (b.state.run narrow limit' n).outcome = .ok () ∧
      Agree narrow (a.state.run wide limit m).machine (b.state.run narrow limit' n).machine := by
  obtain ⟨layout, lowered⟩ := Program.laidOut_of_issueAll assembled clean
  obtain ⟨layout', lowered'⟩ := Program.laidOut_of_issueAll assembled' clean'
  have halts := layout.halts_of_run (k := 0) ok
  obtain ⟨n', halts', agree', _⟩ := halts.simulate
    (R := fun m n => Agree narrow m n ∧ Fits wide m.memory)
    (fun i member m n m₁ j related run => related.1.after_block widens spares (formed i member)
      related.2 (lowered i member).1 (lowered' i member).1 run) ⟨agree, fits⟩
  obtain ⟨enough, ends⟩ := layout'.endsWell_of_halts halts'
  refine ⟨enough, fun limit' large => ?_⟩
  obtain ⟨outcome, machine⟩ := ends limit' limit' large
  refine ⟨outcome, ?_⟩
  have final : (b.state.run narrow limit' n).machine = n' := machine
  rw [final]
  exact agree'

/-- A loop that doubles a vector in memory, with a mask jump past the store, on a target of 32 bytes
and on one of twice 16 bytes that derives all it can. -/
theorem widening_consistent_loop :
    let wide := Config.x86 Level.avx2 "avx2" "256" 32 1
    let narrow := Config.x86 Level.sse2 "sse2" "128x2" 16 2
    let data : Operand := .mem (.plain (.base 3) ⟨0, .dp⟩)
    let top : LabelRef := some ⟨.ofString "top", 0⟩
    let done : LabelRef := some ⟨.ofString "done", 1⟩
    let is : List (Instr LabelRef) :=
      [.movBase (.reg (.base 2)) (.imm ⟨2, .ib⟩), .bind top,
        .arith .add .u32 (.xmm 1) (.xmm 1) data, .arithBase .sub (.base 2) (.imm ⟨1, .ib⟩),
        .compareJump (.base 2) (.imm ⟨0, .ib⟩) .ne top, .compare .cgt .s16 (.xmm 2) (.xmm 1) data,
        .maskJump (.xmm 2) .none done, .mov data (.reg (.xmm 1)), .bind done]
    let memory : Bytes := Array.replicate 32 3
    ∃ a b, (Assembler.start .empty).issueAll (Program.backend wide ⟨false, false⟩) is = .ok a ∧
      (Assembler.start .empty).issueAll (Program.backend narrow ⟨true, true⟩) is = .ok b ∧
      (a.state.run wide 10 (.init wide memory)).machine.memory = Array.replicate 32 6 ∧
      ∃ enough, ∀ limit ≥ enough, (b.state.run narrow limit (.init narrow memory)).outcome = .ok () ∧
        Agree narrow (a.state.run wide 10 (.init wide memory)).machine
          (b.state.run narrow limit (.init narrow memory)).machine := by
  intro wide narrow data top done is memory
  have widens : Widens wide narrow := by
    refine ⟨rfl, ?_, rfl, rfl, by decide, by decide, rfl, rfl, ?_, ?_, by decide⟩ <;>
      simp only [Config.Held, wide, narrow, Config.x86] <;> omega
  obtain ⟨a, assembled, checked⟩ : ∃ a : Assembler Program,
      (Assembler.start .empty).issueAll (Program.backend wide ⟨false, false⟩) is = .ok a ∧
      (decide (a.error? = none) &&
        decide ((a.state.run wide 10 (.init wide memory)).outcome.toOption = some ()) &&
        decide ((a.state.run wide 10 (.init wide memory)).machine.memory = Array.replicate 32 6)) =
      true := ok_of_any (by decide +kernel)
  obtain ⟨b, assembled', clean'⟩ : ∃ b : Assembler Program,
      (Assembler.start .empty).issueAll (Program.backend narrow ⟨true, true⟩) is = .ok b ∧
      decide (b.error? = none) = true := ok_of_any (by decide +kernel)
  simp only [Bool.and_eq_true, decide_eq_true_eq] at checked clean'
  obtain ⟨⟨clean, ended⟩, result⟩ := checked
  refine ⟨a, b, assembled, assembled', result, widening_consistent widens (.inl rfl) ?_ assembled
    clean assembled' clean' (.init widens (by decide) memory) ⟨by decide, by decide⟩
    (Machine.toOption_eq_some.mp ended)⟩
  simp [is, Instr.Formed, Program.baseOp, Op.isCompare]

end LaneAsm
