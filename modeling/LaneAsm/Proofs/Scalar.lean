import LaneAsm.Proofs.Bytes
import LaneAsm.Proofs.Lowering

/-!
Instructions on base registers and jumps. They neither see nor change the vector registers, and all
they ask of a target is how wide its base registers and addresses are: on machines with the same base
registers and memory they do the same (`scalar_frame`).
-/
namespace LaneAsm

/-- Two targets have base registers and addresses of the same widths. -/
structure Config.SameBase (cfg cfg' : Config) : Prop where
  baseBits : cfg'.baseBits = cfg.baseBits
  addressBits : cfg'.addressBits = cfg.addressBits

theorem Config.SameBase.rfl {cfg : Config} : cfg.SameBase cfg := ⟨.refl _, .refl _⟩

namespace Machine

variable {cfg cfg' : Config} {m n : Machine}

/-- One machine went on to `m₁`. What came out of another one is that but for its vector registers,
which neither changed; the memory has the size it had. -/
structure Framed (m n : Machine) (out : Except Fault Machine) (m₁ : Machine) : Prop where
  done : out = .ok { m₁ with vectors := n.vectors }
  vectors : m₁.vectors = m.vectors
  size : m₁.memory.size = m.memory.size

section
variable (bases : n.bases = m.bases) (memory : n.memory = m.memory)
include bases memory

theorem framed_self : Framed m n (.ok n) m where
  done := by rw [← bases, ← memory]
  vectors := rfl
  size := rfl

theorem setBase_framed {r : Reg} {x : UInt64} {m₁ : Machine} (done : m.setBase r x = .ok m₁) :
    Framed m n (n.setBase r x) m₁ := by
  obtain ⟨i, found, made⟩ := bind_eq_ok.mp done
  cases made
  refine ⟨bind_eq_ok.mpr ⟨i, found, ?_⟩, rfl, rfl⟩
  rw [← bases, ← memory]
  rfl

variable (same : cfg.SameBase cfg')
include same

theorem locate_eq_of_same (x : Mem) (size : Nat) : n.locate cfg' x size = m.locate cfg x size := by
  simp only [locate, address, base_congr bases, memory, same.addressBits]

theorem baseOf_eq_of_same (o : Operand) : n.baseOf cfg' o = m.baseOf cfg o := by
  cases o <;> simp only [baseOf, baseMask, baseElem, load, base_congr bases, memory,
    locate_eq_of_same bases memory same, same.baseBits]

theorem store_framed {x : Mem} {v : Bytes} {m₁ : Machine} (done : m.store cfg x v = .ok m₁) :
    Framed m n (n.store cfg' x v) m₁ := by
  obtain ⟨a, found, made⟩ := bind_eq_ok.mp done
  cases made
  refine ⟨bind_eq_ok.mpr ⟨a, (locate_eq_of_same bases memory same x _).trans found, ?_⟩, rfl,
    Bytes.size_write ..⟩
  rw [← bases, ← memory]
  rfl

/-- An instruction on base registers or a jump does the same on both machines. -/
theorem scalar_frame {i : Instr LabelRef} {p : Primitive} (single : Capability.single? i = some p)
    {m₁ : Machine} {j : LabelRef} (done : m.effect cfg p = .ok m₁)
    (jumped : m.jumpOf cfg p = .ok j) :
    Framed m n (n.effect cfg' p) m₁ ∧ n.jumpOf cfg' p = .ok j := by
  have mask : baseMask cfg' = baseMask cfg := by simp only [baseMask, same.baseBits]
  have elem : baseElem cfg' = baseElem cfg := by simp only [baseElem, same.baseBits]
  have value (o : Operand) := baseOf_eq_of_same bases memory same o
  have register (r : Reg) := base_congr bases r
  cases i with
  | movBase dst src =>
    cases single
    refine ⟨?_, jumped⟩
    cases dst with
    | reg d =>
      obtain ⟨x, read, done⟩ := bind_eq_ok.mp done
      simp only [effect, value, read]
      exact setBase_framed bases memory done
    | mem d =>
      cases src with
      | reg s =>
        obtain ⟨x, read, done⟩ := bind_eq_ok.mp done
        obtain ⟨v, made, done⟩ := bind_eq_ok.mp done
        have written := store_framed bases memory same done
        exact ⟨bind_eq_ok.mpr ⟨x, (register s).trans read,
          bind_eq_ok.mpr ⟨v, by rw [← made, elem], written.done⟩⟩, written.vectors, written.size⟩
      | _ =>
        cases done
        exact framed_self bases memory
    | imm k =>
      cases done
      exact framed_self bases memory
  | arithBase op dst src =>
    cases single
    obtain ⟨y, right, done⟩ := bind_eq_ok.mp done
    obtain ⟨x, left, done⟩ := bind_eq_ok.mp done
    refine ⟨?_, jumped⟩
    simp only [effect, value, right, register, left, mask]
    exact setBase_framed bases memory done
  | shiftBase op signed dst count =>
    cases single
    obtain ⟨x, left, done⟩ := bind_eq_ok.mp done
    refine ⟨?_, jumped⟩
    simp only [effect, register, left, same.baseBits]
    exact setBase_framed bases memory done
  | compareJump x y cond target =>
    cases single
    cases done
    refine ⟨framed_self bases memory, ?_⟩
    rw [← jumped]
    simp only [jumpOf, value, register, mask, same.baseBits]
  | jump target | bind label =>
    cases single
    cases done
    exact ⟨framed_self bases memory, jumped⟩
  | _ => cases single

end

end Machine

end LaneAsm
