import LaneAsm.Proofs.X86.Groups

/-!
A vector unit that computes lanes by their definition, and asks for aligned vectors as processors do.
Signed and unsigned lanes share the forms of some operations; these give the same bits for both
(`Elem.Alike`), so it does not matter which of the two a form is read back to.
-/
namespace LaneAsm

namespace Lane

theorem value_inj {e : Elem} {x y : UInt64} : value e x = value e y ↔
    (x.toNat : Int) % 2 ^ e.bits = (y.toNat : Int) % 2 ^ e.bits := by
  constructor
  · intro same
    have left := spells_value e x
    rw [same] at left
    exact left.trans (spells_value e y).symm
  · intro same
    unfold value
    split
    · have range : ((2 ^ e.bits : Nat) : Int) = 2 ^ e.bits := by simp
      rw [← Int.emod_bmod, range, same, ← range, Int.emod_bmod]
    · exact same

theorem eval_signless {op : Op} (signless : op.signless = true) {bits : Nat}
    (valid : (Elem.mk bits .unsigned).valid = true) :
    eval op ⟨bits, .signed⟩ = eval op ⟨bits, .unsigned⟩ := by
  funext x y
  by_cases equal : op = .ceq
  · subst equal
    have compare (kind : Kind) (known : (Elem.mk bits kind).valid = true)
        (whole : (Elem.mk bits kind).isFloat = false) :=
      eval_compare known whole (c := .ceq) rfl x y
    rw [compare .unsigned valid rfl, compare .signed valid rfl]
    simp only [relates, value_inj]
    rfl
  · cases op <;> first | contradiction | rfl

end Lane

namespace Elem.Alike

variable {op : Op} {d e : Elem} (alike : Alike op d e) (valid : e.valid = true)
include alike valid

theorem valid_other : d.valid = true := by
  obtain ⟨bits, integer, _⟩ := alike
  rcases bits_of_valid valid with width | width | width | width <;>
    simp [Elem.valid, bits, width, integer]

variable (whole : e.isFloat = false)
include whole

theorem eval_eq : Lane.eval op d = Lane.eval op e := by
  have width := bits_of_valid valid
  obtain ⟨bits, kind⟩ := d
  obtain ⟨_, kind'⟩ := e
  obtain ⟨rfl, integer, same | signless⟩ := alike
  · obtain rfl : kind = kind' := same
    rfl
  · have unsigned : (Elem.mk bits .unsigned).valid = true := by
      rcases width with rfl | rfl | rfl | rfl <;> rfl
    have both := Lane.eval_signless signless unsigned
    cases kind <;> cases kind' <;> first
      | contradiction
      | exact both
      | exact both.symm
      | rfl

theorem shift?_eq {a : Bytes} (lanes : e.bytes ∣ a.size) (n : UInt64) :
    Lanes.shift? op d a n = Lanes.shift? op e a n := by
  have bits := alike.1
  have lanes' : d.bytes ∣ a.size := by rwa [Elem.bytes, bits]
  rw [Lanes.shift?_eq op (alike.valid_other valid) lanes', Lanes.shift?_eq op valid lanes,
    alike.eval_eq valid whole]
  simp only [Bytes.ofLanes, Bytes.lanes, Elem.bytes, Elem.width, bits]

theorem eval?_eq {a b : Bytes} (lanes : e.bytes ∣ a.size) (same : a.size = b.size)
    (paired : Lanes.paired op = true) : Lanes.eval? op d a b = Lanes.eval? op e a b := by
  have bits := alike.1
  have lanes' : d.bytes ∣ a.size := by rwa [Elem.bytes, bits]
  rw [Lanes.eval?_paired paired (alike.valid_other valid) lanes' same,
    Lanes.eval?_paired paired valid lanes same, alike.eval_eq valid whole]
  simp only [Bytes.ofLanes, Bytes.lanes, Elem.bytes, Elem.width, bits]

end Elem.Alike

namespace X86

/-- The shift that a group of opcodes has at a digit. -/
def ofGroup? (f : Form) (digit : RegNum) : Option (Op × Elem) :=
  integerOps.find? fun (op, e) => (op == .shl || op == .shr) && (nativeForm? op e).isSome &&
    Form.shiftGroup e.bits == f && shiftDigit op e == digit

theorem ofGroup?_all : ∀ op ∈ Op.named, ∀ e ∈ Elem.integers, op = .shl ∨ op = .shr →
    (nativeForm? op e).isSome = true →
    ∃ p ∈ ofGroup? (.shiftGroup e.bits) (shiftDigit op e), p.1 = op ∧ Elem.Alike op p.2 e := by
  decide +kernel

section
variable {op : Op} {e : Elem} (valid : e.valid = true) (whole : e.isFloat = false)
include valid whole

theorem ofGroup?_shift (shift : op = .shl ∨ op = .shr)
    (native : (nativeForm? op e).isSome = true) :
    ∃ d, ofGroup? (.shiftGroup e.bits) (shiftDigit op e) = some (op, d) ∧ Elem.Alike op d e := by
  obtain ⟨⟨_, d⟩, found, rfl, alike⟩ := ofGroup?_all op (mem_named whole native) e
    (Elem.mem_integers valid whole) shift native
  exact ⟨d, found, alike⟩

/-- An operation with a form is total on sixteen bytes, and gives the same on lanes that are
alike. -/
theorem eval?_native {f : Form} {level : Level} (native : nativeForm? op e = some (f, level))
    {d : Elem} (alike : Elem.Alike op d e) {a b : Bytes} (left : a.size = 16)
    (right : b.size = 16)
    (small : op = .shl ∨ op = .shr → (wordOf (b.toList.take 8)).toNat < e.bits) :
    ∃ v, Lanes.eval? op e a b = some v ∧ Lanes.eval? op d a b = some v := by
  have lanes : e.bytes ∣ a.size := by
    rw [left]
    exact Nat.dvd_trans (Elem.bytes_dvd valid) (by decide)
  by_cases shift : op = .shl ∨ op = .shr
  · have room : 8 ≤ b.size := by omega
    rw [Lanes.eval?_shift shift valid a room (small shift),
      Lanes.eval?_shift shift (alike.valid_other valid) a room (alike.1.symm ▸ small shift),
      alike.shift?_eq valid whole lanes, Lanes.shift?_eq op valid lanes]
    exact ⟨_, rfl, rfl⟩
  · have paired := paired_of_nativeForm? whole native (not_or.mp shift)
    have same : a.size = b.size := left.trans right.symm
    rw [alike.eval?_eq valid whole lanes same paired, Lanes.eval?_paired paired valid lanes same]
    exact ⟨_, rfl, rfl⟩

end

/-- The vector unit that computes lanes by their definition. -/
def VectorUnit.ofLanes : VectorUnit where
  strict := true
  binary f a b := ((ofForm? f).bind fun p => Lanes.eval? p.1 p.2 a b).getD (Bytes.zeros 16)
  shift f r a n := ((ofGroup? f r).bind fun p => Lanes.shift? p.1 p.2 a n.toUInt64).getD #[]
  size_binary f a b left right := by
    cases value : (ofForm? f).bind fun p => Lanes.eval? p.1 p.2 a b with
    | none => exact Array.size_replicate
    | some v =>
      obtain ⟨p, -, value⟩ := Option.bind_eq_some_iff.mp value
      exact (Lanes.size_eval? value).trans left
  binary_eq valid whole native a b left right small := by
    obtain ⟨d, found, alike⟩ := ofForm?_native valid whole native
    obtain ⟨v, value, other⟩ := eval?_native valid whole native alike left right small
    rw [value, found, Option.bind_some, other, Option.getD_some]
  shift_eq {op e} shift valid whole native a n size small := by
    obtain ⟨d, found, alike⟩ := ofGroup?_shift valid whole shift native
    have lanes : e.bytes ∣ a.size := by
      rw [size]
      exact Nat.dvd_trans (Elem.bytes_dvd valid) (by decide)
    rw [found, Option.bind_some, alike.shift?_eq valid whole lanes,
      Lanes.shift?_eq op valid lanes, Option.getD_some]

end X86

end LaneAsm
