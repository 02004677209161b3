import LaneAsm.Catalog.BuiltIn
import LaneAsm.Proofs.X86.Expand
import LaneAsm.Proofs.X86.Unit

/-!
Selection of expanded operations. Where the plan of an operation on integers is not to encode it as
it stands, the instructions selected for it run from every state and leave in the destination what
the lanes of the sources give (`expansion_correct`).
-/
namespace LaneAsm.X86

/-- The request to a backend for an operation on lanes. -/
def request (op : Op) (e : Elem) (dst src : Reg) (y : Operand) : Primitive :=
  match op with
  | .shl | .shr => .shift op e dst src y
  | .svl | .svr => .shiftEach op e dst src y
  | op => if op.isCompare then .compare op e dst src y else .arith op e dst src y

/-- Whether an operation shifts all lanes by one count. -/
def ShiftsByOne (op : Op) : Prop := op = .shl ∨ op = .shr

instance (op : Op) : Decidable (ShiftsByOne op) := inferInstanceAs (Decidable (_ ∨ _))

namespace State

/-- The value of the second source of an operation on two vectors. -/
def operand? (cfg : Config) (s : State) : Operand → Option Bytes
  | .reg r => (vectorNum r).toOption.map fun k => s.low k cfg.physBytes
  | .mem m => (s.address? cfg.shortAddress m).map fun a => s.mem.read a cfg.physBytes
  | .imm _ => none

/-- The count of a shift: an immediate, or the first lane of a memory operand. -/
def count? (cfg : Config) (s : State) (e : Elem) : Operand → Option UInt64
  | .imm i => some (UInt64.ofInt i.value)
  | .mem m => (s.address? cfg.shortAddress m).map fun a => wordOf (s.mem.read a e.bytes).toList
  | .reg _ => none

/-- What an operation gives on the values that a state holds. -/
def expected? (cfg : Config) (s : State) (op : Op) (e : Elem) (x : RegNum) (y : Operand) :
    Option Bytes :=
  if ShiftsByOne op then (s.count? cfg e y).bind (Lanes.shift? op e (s.low x cfg.physBytes))
  else (s.operand? cfg y).bind (Lanes.eval? op e (s.low x cfg.physBytes))

end State

/-- The second source of an expanded operation: a vector register, or an immediate count of a shift,
or memory that has an address, is not addressed by the stack pointer, and whose bytes lie away from
scratch memory and from the stack. -/
def Source (cfg : Config) (s : State) (start : UInt64) (op : Op) (e : Elem) : Operand → Prop
  | .reg r => ¬ShiftsByOne op ∧ ∃ k, vectorNum r = .ok k
  | .imm _ => ShiftsByOne op
  | .mem m => m.base ≠ Reg.stack ∧ m.index ≠ some Reg.stack ∧
    ∃ a, s.address? cfg.shortAddress m = some a ∧
      let n := if ShiftsByOne op then e.bytes else cfg.physBytes
      Apart a n start (2 * cfg.physBytes) ∧ Apart a n (s.gpr rsp - 16) 16

/-! ## Plans -/

theorem level_of_shiftEachForm? {op : Op} {e : Elem} {f : Form} {level : Level}
    (found : shiftEachForm? op e = some (f, level)) : level = Level.avx2 := by
  grind [shiftEachForm?]

section
variable {cfg : Config} (ok : Expandable cfg) {op : Op} {e : Elem} {p : Plan}
  (planned : planOf? cfg op e = some p) (indirect : p.unit ≠ .none)
include ok planned indirect

theorem expansion_of_planned : Expansion cfg op e (nativeForm op e) p := by
  have scalar (given : (if scalarOp op e = true then
      some ⟨.scalar, cfg.physBytes, e.bytes⟩ else none) = some p) :
      Expansion cfg op e (nativeForm op e) p := by
    split at given
    · next can =>
      obtain rfl := Option.some.inj given
      exact .lanes can
    · cases given
  simp only [planOf?, planFor?] at planned
  split at planned
  · next f level native =>
    split at planned
    · split at planned
      · obtain rfl := Option.some.inj planned
        exact absurd rfl indirect
      · split at planned
        · next narrow early =>
          obtain rfl := Option.some.inj planned
          have long : cfg.physBytes = 32 := by
            have := ok.width
            omega
          have form : nativeForm op e = f := by rw [nativeForm, native]; rfl
          exact .halves long (form ▸ native) early
        · exact scalar planned
    · exact scalar planned
  · exact scalar planned

variable (whole : e.isFloat = false)
include whole

/-- Shifts with a count for each lane came after VEX, so they are expanded lane by lane. -/
theorem expansion_of_shiftEach (each : op = .svl ∨ op = .svr) (f : Form) :
    Expansion cfg op e f p := by
  cases expansion_of_planned ok planned indirect with
  | lanes can => exact .lanes can
  | halves long native early =>
    have form : nativeForm? op e = shiftEachForm? op e := by
      rcases each with rfl | rfl <;> simp [nativeForm?, whole]
    obtain rfl := level_of_shiftEachForm? (form ▸ native)
    exact absurd early (by decide)

/-- Comparators with a plan are compared directly. -/
theorem nativeCompare_of_planned (compares : op.isCompare = true) : nativeCompare op e = true := by
  cases expansion_of_planned ok planned indirect with
  | lanes can => cases op <;> simp_all [scalarOp, nativeCompare, Op.isCompare]
  | halves long native early =>
    simp only [nativeForm?, whole, Bool.false_eq_true, ↓reduceIte] at native
    cases op <;> simp_all [nativeCompare, Op.isCompare]

end

/-! ## Operands -/

/-- The counts of a shift are taken modulo the lane width. -/
theorem toNat_maskedCount {e : Elem} (valid : e.valid = true) (x : Int) :
    (UInt8.ofInt x &&& countMask e).toNat = (UInt64.ofInt x).toNat % e.bits := by
  have low : (UInt8.ofInt x).toNat = (x % 256).toNat := by
    rw [UInt8.ofInt, UInt8.toNat_ofNat']
    omega
  have word : (UInt64.ofInt x).toNat = (x % 2 ^ 64).toNat := by
    rw [UInt64.ofInt, UInt64.toNat_ofNat']
    omega
  have masked {k : Nat} {v : UInt8} (ones : v.toNat = 2 ^ k - 1) :
      (UInt8.ofInt x &&& v).toNat = (x % 256).toNat % 2 ^ k := by
    rw [UInt8.toNat_and, low, ones, Nat.and_two_pow_sub_one_eq_mod]
  rw [word]
  rcases Elem.bits_of_valid valid with bits | bits | bits | bits <;> simp only [countMask, bits]
  · rw [masked (k := 3) (by decide)]
    omega
  · rw [masked (k := 4) (by decide)]
    omega
  · rw [masked (k := 5) (by decide)]
    omega
  · rw [masked (k := 6) (by decide)]
    omega

section
variable {cfg : Config} {s : State} {start : UInt64} {op : Op} {e : Elem}

theorem checkVectorMem_ok {m : Mem} {a : UInt64} (base : m.base ≠ Reg.stack)
    (index : m.index ≠ some Reg.stack) (found : s.address? cfg.shortAddress m = some a) :
    checkVectorMem m = .ok () := by
  have other {r : Reg} {k : RegNum} (number : (baseNum r).toOption = some k)
      (free : r ≠ Reg.stack) : r.index ≠ Reg.stack.index := by
    cases given : baseNum r with
    | error _ => simp [given, Except.toOption] at number
    | ok k => exact (baseNum_other given free).2
  obtain ⟨k, number, rest⟩ := Option.bind_eq_some_iff.mp found
  obtain ⟨i, indexed, _⟩ := Option.map_eq_some_iff.mp rest
  rw [checkVectorMem, if_neg (other number base), if_neg]
  cases given : m.index with
  | none => simp
  | some r =>
    simp only [State.index?, given] at indexed
    obtain ⟨k, number, _⟩ := Option.map_eq_some_iff.mp indexed
    have free : r ≠ Reg.stack := by
      rintro rfl
      exact index given
    simpa using other number free

theorem vectorSource_of_source (each : ¬ShiftsByOne op) {y : Operand}
    (source : Source cfg s start op e y) : ∃ z b, vectorSource y = .ok z ∧
      s.operand? cfg y = some b ∧ s.vector? cfg z = some b ∧
      ∀ m a, z = .mem m → s.address? cfg.shortAddress m = some a →
        Apart a cfg.physBytes start (2 * cfg.physBytes) := by
  cases y with
  | reg r =>
    obtain ⟨_, k, number⟩ := source
    refine ⟨.reg k, s.low k cfg.physBytes, ?_, ?_, rfl, fun m a given => ?_⟩
    · simp [vectorSource, number, Except.map]
    · simp [State.operand?, number, Except.toOption]
    · cases given
  | mem m =>
    obtain ⟨base, index, a, found, apart⟩ := source
    refine ⟨.mem m, s.mem.read a cfg.physBytes, ?_, ?_, ?_, fun m₁ a₁ same found₁ => ?_⟩
    · simp only [vectorSource, checkVectorMem_ok base index found]
      rfl
    · simp [State.operand?, found]
    · simp [State.vector?, found]
    · cases same
      obtain rfl := Option.some.inj (found.symm.trans found₁)
      rw [if_neg each] at apart
      exact apart.1
  | imm i => exact absurd source each

/-- What a shift by one count takes its count from. -/
theorem counts_of_source (shifts : ShiftsByOne op) {m : Mem}
    (source : Source cfg s start op e (.mem m)) : checkVectorMem m = .ok () ∧
      ∃ n, s.count? cfg e (.mem m) = some n ∧ Counts cfg s start e n (.mem m) := by
  obtain ⟨base, index, a, found, apart⟩ := source
  rw [if_pos shifts] at apart
  refine ⟨checkVectorMem_ok base index found, wordOf (s.mem.read a e.bytes).toList, ?_, ?_⟩
  · simp [State.count?, found]
  · exact ⟨a, found, rfl, base, index, apart.1, apart.2⟩

end

/-! ## Selected expansions -/

section
variable {u : VectorUnit} {cfg : Config} (ok : Expandable cfg) {s : State} {start : UInt64}
  (area : Area cfg s start) (stack : Apart (s.gpr rsp - 16) 16 start (2 * cfg.physBytes))
  {op : Op} {e : Elem} (valid : e.valid = true) (whole : e.isFloat = false) {p : Plan}
  {dst src : Reg} {d x : RegNum} (into : vectorNum dst = .ok d) (left : vectorNum src = .ok x)
  {y : Operand} (source : Source cfg s start op e y)
include ok area stack valid whole into left source

/-- A selection that expands an operation on two vectors. -/
theorem selects_expanded (each : ¬ShiftsByOne op) (f : Form) (plan : Expansion cfg op e f p)
    {pick : RegNum → RegNum → Rm → Selection Unit}
    (expanded : ∀ d x z, pick d x z = expand cfg p op e f d x z) :
    ∃ v, s.expected? cfg op e x y = some v ∧ Selects u cfg.shortAddress (do
      let d ← .check (vectorNum dst)
      let x ← .check (vectorNum src)
      let y ← .check (vectorSource y)
      pick d x y) s (Delivered cfg s start d v) := by
  have both : op ≠ .shl ∧ op ≠ .shr := not_or.mp each
  obtain ⟨z, b, converted, operand, given, apart⟩ := vectorSource_of_source each source
  have size_a := State.size_low s x ok.physBytes_le
  have lanes : e.bytes ∣ (s.low x cfg.physBytes).size := by
    rw [size_a]
    exact bytes_dvd_physBytes ok valid
  obtain ⟨v, value⟩ : ∃ v, Lanes.eval? op e (s.low x cfg.physBytes) b = some v :=
    ⟨_, Lanes.eval?_paired (plan.paired whole both) valid lanes
      (size_a.trans (size_vector? ok given).symm)⟩
  refine ⟨v, ?_, .check into (.check left (.check converted ?_))⟩
  · rw [State.expected?, if_neg each, operand]
    exact value
  · rw [expanded]
    exact selects_expand ok area stack valid whole both plan d x given apart value

variable (planned : planOf? cfg op e = some p) (indirect : p.unit ≠ .none)
include planned indirect

theorem selects_selectBinary (each : ¬ShiftsByOne op) (imm : List UInt8) :
    ∃ v, s.expected? cfg op e x y = some v ∧ Selects u cfg.shortAddress
      (selectBinary cfg op e dst src y imm) s (Delivered cfg s start d v) := by
  refine selects_expanded ok area stack valid whole into left source each (nativeForm op e)
    (expansion_of_planned ok planned indirect) fun d x z => ?_
  rw [planOf, planned]
  exact if_neg indirect

theorem selects_selectShiftEach (each : op = .svl ∨ op = .svr) :
    ∃ v, s.expected? cfg op e x y = some v ∧ Selects u cfg.shortAddress
      (selectShiftEach cfg op e dst src y) s (Delivered cfg s start d v) := by
  have unshared : ¬ShiftsByOne op := by rcases each with rfl | rfl <;> decide
  refine selects_expanded ok area stack valid whole into left source unshared .blank
    (expansion_of_shiftEach ok planned indirect whole each .blank) fun d x z => ?_
  rw [planOf, planned]
  exact if_neg indirect

theorem selects_selectShift (shifts : ShiftsByOne op) :
    ∃ v, s.expected? cfg op e x y = some v ∧ Selects u cfg.shortAddress
      (selectShift cfg op e dst src y) s (Delivered cfg s start d v) := by
  have plan := expansion_of_planned ok planned indirect
  have choice : planOf cfg op e = .ok p := by rw [planOf, planned]
  have lanes : e.bytes ∣ (s.low x cfg.physBytes).size := by
    rw [State.size_low s x ok.physBytes_le]
    exact bytes_dvd_physBytes ok valid
  have value (n : UInt64) : ∃ v, Lanes.shift? op e (s.low x cfg.physBytes) n = some v :=
    ⟨_, Lanes.shift?_eq op valid lanes n⟩
  cases y with
  | reg r => exact absurd shifts source.1
  | imm i =>
    obtain ⟨v, value⟩ := value (UInt64.ofInt i.value)
    refine ⟨v, ?_, .check into (.check left (.check choice ?_))⟩
    · rw [State.expected?, if_pos shifts]
      exact value
    · have given : Counts cfg s start e (UInt64.ofInt i.value)
          (.imm (UInt8.ofInt i.value &&& countMask e)) := toNat_maskedCount valid i.value
      simp only [if_neg indirect]
      exact selects_expandShift ok area stack valid whole shifts plan d x given value
  | mem m =>
    obtain ⟨passed, n, counted, given⟩ := counts_of_source shifts source
    obtain ⟨v, value⟩ := value n
    refine ⟨v, ?_, .check into (.check left (.check choice (.check passed ?_)))⟩
    · rw [State.expected?, if_pos shifts, counted]
      exact value
    · rw [if_neg indirect]
      exact selects_expandShift ok area stack valid whole shifts plan d x given value

end

theorem expandable_builtIn : ∀ cfg ∈ Catalog.standard.builtIn, Expandable cfg := by
  intro cfg member
  simp only [Catalog.standard, Catalog.ofTables, List.mem_cons, List.not_mem_nil, or_false] at member
  rcases member with rfl | rfl | rfl | rfl | rfl | rfl | rfl | rfl | rfl | rfl <;>
    exact ⟨by decide, by decide, by decide, by decide⟩

/-- Wherever an operation on integer lanes is expanded, the instructions selected for it run, and
they deliver what its lanes give on the sources as they were before. -/
theorem expansion_correct (u : VectorUnit) {cfg : Config} (ok : Expandable cfg) {s : State}
    {start : UInt64} (area : Area cfg s start)
    (stack : Apart (s.gpr rsp - 16) 16 start (2 * cfg.physBytes)) {op : Op} {e : Elem}
    (valid : e.valid = true) (whole : e.isFloat = false) {p : Plan}
    (planned : planOf? cfg op e = some p) (indirect : p.unit ≠ .none) {dst src : Reg}
    {d x : RegNum} (into : vectorNum dst = .ok d) (left : vectorNum src = .ok x) {y : Operand}
    (source : Source cfg s start op e y) :
    ∃ v, s.expected? cfg op e x y = some v ∧ Selects u cfg.shortAddress
      (select cfg (request op e dst src y)) s (Delivered cfg s start d v) := by
  by_cases shifts : ShiftsByOne op
  · have asked : select cfg (request op e dst src y) = selectShift cfg op e dst src y := by
      rcases shifts with rfl | rfl <;> rfl
    rw [asked]
    exact selects_selectShift ok area stack valid whole into left source planned indirect shifts
  by_cases each : op = .svl ∨ op = .svr
  · have asked : select cfg (request op e dst src y) = selectShiftEach cfg op e dst src y := by
      rcases each with rfl | rfl <;> rfl
    rw [asked]
    exact selects_selectShiftEach ok area stack valid whole into left source planned indirect each
  have asked : select cfg (request op e dst src y) = selectBinary cfg op e dst src y [] := by
    have direct := nativeCompare_of_planned ok planned indirect whole
    cases op <;> simp_all [request, select, selectCompare, Op.isCompare, ShiftsByOne]
  rw [asked]
  exact selects_selectBinary ok area stack valid whole into left source planned indirect shifts []

/-- A shift in place on a target that has no form for it, by a count past the lane width that lies
behind the register in which counts are kept. -/
theorem expansion_correct_count :
    let cfg := Config.x86 Level.avx1 "avx1" "256" 32 1
    let s : State := {
      gpr := fun r => if r = rsp then 0x8000 else 0x1000
      vec := fun _ => .replicate 32 0x80
      mem := fun c => if c = 0x1008 then 67 else 0
      flags := none }
    let y : Operand := .mem (.plain (.base 1) ⟨8, .dp⟩)
    planOf? cfg .shr .s64 = some ⟨.scalar, 32, 8⟩ ∧
      Selects .ofLanes cfg.shortAddress (select cfg (request .shr .s64 (.xmm 2) (.xmm 2) y)) s
        (Delivered cfg s 0x1100 2
          (List.replicate 4 [0x10, 0x10, 0x10, 0x10, 0x10, 0x10, 0x10, 0xF0]).flatten.toArray) := by
  intro cfg s y
  have apart {a b : UInt64} {n k : Nat} (order : a.toNat + n ≤ b.toNat)
      (room : b.toNat + k ≤ 2 ^ 64) : Apart a n b k := by
    intro c first second
    simp only [Inside, UInt64.toNat_sub] at first second
    have := c.toNat_lt
    omega
  have planned : planOf? cfg .shr .s64 = some ⟨.scalar, 32, 8⟩ := by decide
  have source : Source cfg s 0x1100 .shr .s64 y :=
    ⟨by decide, by decide, 0x1008, by decide, apart (by decide) (by decide),
      apart (by decide) (by decide)⟩
  have value : s.expected? cfg .shr .s64 2 y = some
      (List.replicate 4 [0x10, 0x10, 0x10, 0x10, 0x10, 0x10, 0x10, 0xF0]).flatten.toArray := by
    decide
  have area : Area cfg s 0x1100 := ⟨by decide, by decide⟩
  have stack : Apart (s.gpr rsp - 16) 16 0x1100 (2 * cfg.physBytes) :=
    (apart (by decide) (by decide)).symm
  have register : vectorNum (.xmm 2) = .ok 2 := rfl
  have builtIn : cfg ∈ Catalog.standard.builtIn := by simp [cfg, Catalog.standard, Catalog.ofTables]
  obtain ⟨v, result, done⟩ := expansion_correct .ofLanes (expandable_builtIn cfg builtIn)
    area stack rfl rfl planned (by decide) register register source
  rw [value] at result
  obtain rfl := Option.some.inj result
  exact ⟨planned, done⟩

end LaneAsm.X86
