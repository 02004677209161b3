import LaneAsm.Machine.Step

/-!
The registers of the reference machine. `Machine.vectorAt?` reads a vector register by its number
and `Machine.Writes` says that one vector register changed and nothing else did; writing a register
that exists has that effect, and whatever reads only base registers and memory does not see it.
-/
namespace LaneAsm

/-- A computation that gives a result goes on with it. -/
theorem bind_eq_ok {ε α β : Type} {x : Except ε α} {f : α → Except ε β} {b : β} :
    x >>= f = .ok b ↔ ∃ a, x = .ok a ∧ f a = .ok b := by
  cases x with
  | ok a => simp [bind, Except.bind]
  | error e => simp [bind, Except.bind]

theorem ok_of_any {α : Type} {x : Except Fault α} {p : α → Bool}
    (holds : x.toOption.any p = true) : ∃ a, x = .ok a ∧ p a = true := by
  cases x with
  | ok a => exact ⟨a, rfl, holds⟩
  | error f => cases holds

namespace Machine

theorem orTrap_eq_ok {α : Type} {x : Option α} {a : α} : orTrap x = .ok a ↔ x = some a := by
  cases x <;> simp [orTrap]

/-- The vector register with a number, if there is one. -/
def vectorAt? (m : Machine) (i : Int) : Option Bytes :=
  if 0 ≤ i then m.vectors[i.toNat]? else none

theorem vector_eq (m : Machine) (r : Reg) : m.vector r = orTrap (m.vectorAt? r.index) := by
  by_cases inside : 0 ≤ r.index ∧ r.index < 32
  · have bound : r.index.toNat < 32 := by omega
    simp [vector, index, vectorAt?, inside, bound, orTrap, bind, Except.bind, pure, Except.pure,
      Vector.get]
  · have missing : m.vectorAt? r.index = none := by
      unfold vectorAt?
      split
      · exact Vector.getElem?_eq_none (by omega)
      · rfl
    rw [missing, vector, index, dif_neg inside]
    rfl

theorem vector_eq_ok {m : Machine} {r : Reg} {v : Bytes} :
    m.vector r = .ok v ↔ m.vectorAt? r.index = some v := by
  rw [vector_eq, orTrap_eq_ok]

/-- One vector register is written and nothing else changes. -/
structure Writes (m m' : Machine) (i : Int) (v : Bytes) : Prop where
  here : m'.vectorAt? i = some v
  others : ∀ j, j ≠ i → m'.vectorAt? j = m.vectorAt? j
  bases : m'.bases = m.bases
  memory : m'.memory = m.memory

theorem isSome_vectorAt? {m : Machine} {i : Int} :
    (m.vectorAt? i).isSome ↔ 0 ≤ i ∧ i < 32 := by
  by_cases low : 0 ≤ i <;> simp [vectorAt?, low]

/-- A register that exists can be written. -/
theorem setVector_writes {m : Machine} {r : Reg} (known : (m.vectorAt? r.index).isSome)
    (v : Bytes) : ∃ m', m.setVector r v = .ok m' ∧ Writes m m' r.index v := by
  have inside := isSome_vectorAt?.mp known
  have bound : r.index.toNat < 32 := by omega
  refine ⟨{ m with vectors := m.vectors.set r.index.toNat v }, ?_, ?_, ?_, rfl, rfl⟩
  · simp [setVector, index, inside, bind, Except.bind, pure, Except.pure]
  · simp [vectorAt?, inside]
  · intro j other
    by_cases low : 0 ≤ j
    · have apart : r.index.toNat ≠ j.toNat := by omega
      simp [vectorAt?, low, Vector.getElem?_set_ne, apart]
    · simp [vectorAt?, low]

theorem writes_of_setVector {m m' : Machine} {r : Reg} {v : Bytes}
    (written : m.setVector r v = .ok m') :
    (m.vectorAt? r.index).isSome ∧ Writes m m' r.index v := by
  by_cases inside : 0 ≤ r.index ∧ r.index < 32
  · have known := isSome_vectorAt? (m := m).mpr inside
    obtain ⟨next, same, effect⟩ := setVector_writes known v
    rw [same] at written
    cases written
    exact ⟨known, effect⟩
  · simp [setVector, index, inside, bind, Except.bind] at written

/-! ## What reads only base registers and memory -/

section
variable {m m' : Machine} (bases : m'.bases = m.bases) (memory : m'.memory = m.memory)
include bases

theorem base_congr (r : Reg) : m'.base r = m.base r := by simp only [base, bases]

theorem address_congr (cfg : Config) (x : Mem) : m'.address cfg x = m.address cfg x := by
  simp only [address, base_congr bases]

include memory

theorem locate_congr (cfg : Config) (x : Mem) (n : Nat) :
    m'.locate cfg x n = m.locate cfg x n := by
  simp only [locate, address_congr bases, memory]

theorem load_congr (cfg : Config) (x : Mem) (n : Nat) : m'.load cfg x n = m.load cfg x n := by
  simp only [load, locate_congr bases memory, memory]

theorem countOf_congr (cfg : Config) (e : Elem) (o : Operand) :
    m'.countOf cfg e o = m.countOf cfg e o := by
  cases o <;> simp only [countOf, load_congr bases memory]

end

end Machine

end LaneAsm
