import LaneAsm.Proofs.X86.Expand
import LaneAsm.Proofs.X86.Unit

/-!
Sequences of instructions that combine vectors. Each instruction leaves all registers but its
destination as they were (`Alters`), and a sequence is followed instruction by instruction
(`Reaches.legacy`, `Reaches.vex`). Outside VEX an operand in memory may have to be aligned
(`Fetchable`); where it is not, the instruction faults and the run stops.
-/
namespace LaneAsm.X86

namespace State

variable {u : VectorUnit} {short : Bool} {s t : State}

theorem vector?_eq (cfg : Config) (s : State) (x : Rm) :
    s.vector? cfg x = s.bytes? cfg.shortAddress cfg.physBytes x := by
  cases x <;> rfl

/-- An operand of an instruction outside VEX does not fault: a strict unit finds it aligned. -/
def Fetchable (u : VectorUnit) (short : Bool) (s : State) (x : Rm) : Prop :=
  u.strict = true → s.misaligned short 16 x = false

theorem fetchable_reg (r : RegNum) : s.Fetchable u short (.reg r) := fun _ => rfl

/-- The second state differs from the first in some vector registers. -/
structure Alters (free : List RegNum) (s t : State) : Prop where
  rest : t = { s with vec := t.vec }
  vec : ∀ r, r ∉ free → t.vec r = s.vec r

namespace Alters

variable {free more : List RegNum}

theorem refl (free : List RegNum) (s : State) : Alters free s s := ⟨rfl, fun _ _ => rfl⟩

theorem setVec (s : State) (r : RegNum) (v : Vector UInt8 32) : Alters [r] s (s.setVec r v) :=
  ⟨rfl, fun _ other => setVec_of_ne (by simpa using other) s v⟩

theorem trans {w : State} (first : Alters free s t) (second : Alters free t w) : Alters free s w where
  rest := by
    rw [second.rest, first.rest]
  vec r other := (second.vec r other).trans (first.vec r other)

theorem mono (alters : Alters free s t) (less : free ⊆ more) : Alters more s t :=
  ⟨alters.rest, fun r other => alters.vec r fun member => other (less member)⟩

variable (alters : Alters free s t)
include alters

theorem low {r : RegNum} (other : r ∉ free) (n : Nat) : t.low r n = s.low r n := by
  rw [State.low, State.low, alters.vec r other]

/-- A source keeps its bytes where no register that was changed is the source. -/
theorem bytes? {x : Rm} (other : ∀ r, x = .reg r → r ∉ free) (n : Nat) :
    t.bytes? short n x = s.bytes? short n x := by
  cases x with
  | reg r => exact congrArg some (alters.low (other r rfl) n)
  | mem m =>
    rw [alters.rest]
    rfl

theorem misaligned (x : Rm) (n : Nat) : t.misaligned short n x = s.misaligned short n x := by
  cases x with
  | reg r => rfl
  | mem m =>
    rw [alters.rest]
    rfl

theorem fetchable {x : Rm} (can : s.Fetchable u short x) : t.Fetchable u short x :=
  fun strict => (alters.misaligned x 16).trans (can strict)

end Alters

theorem size_bytes? {n : Nat} (fits : n ≤ 32) {x : Rm} {b : Bytes}
    (given : s.bytes? short n x = some b) : b.size = n := by
  cases x with
  | reg r =>
    obtain rfl := Option.some.inj given
    exact size_low s r fits
  | mem m =>
    obtain ⟨a, _, rfl⟩ := Option.map_eq_some_iff.mp given
    exact Memory.size_read ..

theorem low_setVec_overlay (s : State) (r : RegNum) (old : Vector UInt8 32) {v : Bytes} {n : Nat}
    (size : v.size = n) (fits : n ≤ 32) : (s.setVec r (overlay old v)).low r n = v := by
  subst size
  rw [low_setVec, extract_overlay old fits]

namespace Reaches

variable {is : List Insn} {post : State → Prop}

/-- An instruction without VEX, and what follows once its destination holds the result. -/
theorem legacy {f : Form} {r : RegNum} {x : Rm} {b v : Bytes} (given : s.bytes? short 16 x = some b)
    (can : f.aligned u false = true → s.misaligned short 16 x = false)
    (gives : f.give? u false [] (s.low · 16) (s.low r 16) b = some v) (size : v.size = 16)
    (rest : ∀ t, t.low r 16 = v → Alters [r] s t → t.Reaches u short is post) :
    s.Reaches u short (.legacy f r x [] :: is) post := by
  refine .step (exec_legacy given can gives) (rest _ ?_ (.setVec ..))
  exact low_setVec_overlay s r _ size (by decide)

/-- An instruction in VEX likewise, if it is no aligned move. -/
theorem vex {f : Form} (other : f ≠ .movaps) {long : Bool} {r k : RegNum} {x : Rm} {imm : List UInt8}
    {b v : Bytes} (given : s.bytes? short (vectorBytes long) x = some b)
    (gives : f.give? u long imm (s.low · (vectorBytes long)) (s.low k (vectorBytes long)) b = some v)
    (size : v.size = vectorBytes long)
    (rest : ∀ t, t.low r (vectorBytes long) = v → Alters [r] s t → t.Reaches u short is post) :
    s.Reaches u short (.vex f long r k x imm :: is) post := by
  have free : f.aligned u true ≠ true := by simp [Form.aligned, other]
  refine .step (exec_vex given (fun aligned => absurd aligned free) gives) (rest _ ?_ (.setVec ..))
  exact low_setVec_overlay s r _ size (vectorBytes_le long)

/-- A copy without VEX, which is left out where the two registers are one. -/
theorem copy {cfg : Config} (plain : vexed cfg = false) {long : Bool} {d x : RegNum}
    (rest : ∀ t, t.low d 16 = s.low x 16 → Alters [d] s t → t.Reaches u short is post) :
    s.Reaches u short (copy cfg long d x ++ is) post := by
  unfold X86.copy
  by_cases same : d = x
  · subst same
    rw [if_pos rfl]
    exact rest s rfl (.refl ..)
  · rw [if_neg same]
    simp only [op2, plain, Bool.false_eq_true, if_false, List.cons_append, List.nil_append]
    exact .legacy rfl (fun _ => rfl) (give?_movaps ..) (size_low s x (by decide)) rest

end Reaches

/-- An instruction outside VEX faults that would combine a register with memory which is not
aligned, if the unit is strict. -/
theorem exec_of_misaligned {f : Form} (vector : ∀ r, f.meaning? r = none) (strict : u.strict = true)
    {x : Rm} (off : s.misaligned short 16 x = true) (r : RegNum) (imm : List UInt8) :
    s.exec u short (.legacy f r x imm) = none := by
  have aligned : f.aligned u false = true := by simp [Form.aligned, strict]
  have fault : (f.aligned u false && s.misaligned short 16 x) = true := by rw [aligned, off]; rfl
  rw [exec, performLegacy, vector r]
  simp only [combine?, show vectorBytes false = 16 from rfl, if_pos fault, Option.map_none]

end State

/-- A selection ends well, its instructions run, and a register then holds a value. Besides it only
the temporary has changed. -/
structure Leaves (u : VectorUnit) (cfg : Config) (x : Selection Unit) (s : State) (d : RegNum)
    (v : Bytes) : Prop where
  ok : x.outcome = .ok ()
  runs : s.Reaches u cfg.shortAddress x.items fun t =>
    t.low d cfg.physBytes = v ∧ State.Alters [d, tmp] s t

theorem Leaves.check {u : VectorUnit} {cfg : Config} {s : State} {d : RegNum} {v : Bytes} {α : Type}
    {x : Except Error α} {a : α} (passed : x = .ok a) {f : α → Selection Unit}
    (rest : Leaves u cfg (f a) s d v) : Leaves u cfg (Emission.check x >>= f) s d v := by
  subst passed
  exact rest

end LaneAsm.X86
