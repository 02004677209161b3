import LaneAsm.Catalog.BuiltIn
import LaneAsm.Proofs.Memory

/-!
Memory accesses of the reference machine as exact numbers. A reference whose registers hold `b` and
`k` has the address `effective cfg x b k`. An access from there on is done when all its bytes exist,
and then it reads or writes these and no others. Otherwise it is refused, unless its end wraps around
2^64 and comes to lie inside the memory again (`Wraps`): the bounds are checked in words of 64 bits,
so such an access passes the check and traps (`locate_eq`). Main statement: `accesses_bounded`.
-/
namespace LaneAsm

namespace Machine

variable {cfg : Config} {m : Machine} {x : Mem} {b k : UInt64}

/-! ## Addresses -/

/-- The address of a reference, where its base register holds `b` and its index adds `k`. -/
def effective (cfg : Config) (x : Mem) (b k : UInt64) : Nat :=
  ((b.toNat + x.disp.value + k.toNat) % 2 ^ cfg.addressBits).toNat

theorem toNat_cut_sum (bits : cfg.addressBits = 32 ∨ cfg.addressBits = 64) :
    (cut cfg (b + UInt64.ofInt x.disp.value + k)).toNat = effective cfg x b k := by
  have disp := toNat_ofInt x.disp.value
  rw [toNat_cut, addresses, effective, UInt64.toNat_add, UInt64.toNat_add]
  rcases bits with bits | bits <;> simp only [bits] <;> simp <;> omega

/-- A reference to registers that exist has an address. -/
theorem address_eq_effective (bits : cfg.addressBits = 32 ∨ cfg.addressBits = 64)
    (base : m.base x.base = .ok b) (index : m.indexValue x = .ok k) :
    ∃ a, m.address cfg x = .ok a ∧ a.toNat = effective cfg x b k :=
  ⟨_, address_eq_ok.mpr ⟨b, k, base, index, rfl⟩, toNat_cut_sum bits⟩

/-! ## Bounds -/

/-- The end of an access wraps around and comes to lie inside a memory again. -/
def Wraps (size a n : Nat) : Prop := 2 ^ 64 ≤ a + n ∧ a + n ≤ 2 ^ 64 + size

instance (size a n : Nat) : Decidable (Wraps size a n) := inferInstanceAs (Decidable (_ ∧ _))

theorem locate_eq {a : UInt64} {n : Nat} (small : m.memory.size < 2 ^ 63) (short : n ≤ 64)
    (found : m.address cfg x = .ok a) : m.locate cfg x n =
      if a.toNat + n ≤ m.memory.size then .ok a.toNat
      else if Wraps m.memory.size a.toNat n then .error .trap
      else Fault.fail (.memoryBounds a n) := by
  have below := a.toNat_lt
  have checked : UInt64.ofNat m.memory.size < a + UInt64.ofNat n ↔
      m.memory.size < (a.toNat + n) % 2 ^ 64 := by
    rw [UInt64.lt_iff_toNat_lt, UInt64.toNat_add, UInt64.toNat_ofNat', UInt64.toNat_ofNat']
    omega
  unfold locate
  rw [found]
  simp only [bind, Except.bind, checked]
  by_cases inside : a.toNat + n ≤ m.memory.size
  · rw [if_pos inside, if_neg (by omega), if_neg (by omega)]
    rfl
  · rw [if_neg inside]
    by_cases wraps : Wraps m.memory.size a.toNat n
    · rw [if_pos wraps]
      unfold Wraps at wraps
      rw [if_neg (by omega), if_pos (by omega)]
    · rw [if_neg wraps]
      unfold Wraps at wraps
      rw [if_pos (by omega)]

/-- How an access of `n` bytes from `a` on ends in a memory of some size. -/
structure Bounded {α : Type} (size a n : Nat) (done : α → Prop) (result : Except Fault α) : Prop where
  inside : a + n ≤ size → ∃ r, result = .ok r ∧ done r
  outside : size < a + n → ¬ Wraps size a n →
    result = Fault.fail (.memoryBounds (UInt64.ofNat a) n)
  wrapped : Wraps size a n → result = .error .trap

/-- What is made of the place of an access ends as the search for the place does. -/
theorem bounded_bind {α : Type} {a : UInt64} {n : Nat} {done : α → Prop} {f : Nat → Except Fault α}
    (small : m.memory.size < 2 ^ 63) (short : n ≤ 64) (found : m.address cfg x = .ok a)
    (finish : a.toNat + n ≤ m.memory.size → ∃ r, f a.toNat = .ok r ∧ done r) :
    Bounded m.memory.size a.toNat n done (m.locate cfg x n >>= f) := by
  rw [locate_eq small short found]
  constructor
  · intro inside
    rw [if_pos inside]
    exact finish inside
  · intro outside straight
    rw [if_neg (by omega), if_neg straight, UInt64.ofNat_toNat]
    rfl
  · intro wraps
    have outside : ¬ a.toNat + n ≤ m.memory.size := by
      unfold Wraps at wraps
      omega
    rw [if_neg outside, if_pos wraps]
    rfl

/-- The bytes that were read. -/
def Read (m : Machine) (a n : Nat) (v : Bytes) : Prop :=
  v.size = n ∧ ∀ i < n, v[i]? = m.memory[a + i]?

/-- The machine after some bytes were written. -/
def Stored (m : Machine) (a : Nat) (v : Bytes) (m' : Machine) : Prop :=
  m'.vectors = m.vectors ∧ m'.bases = m.bases ∧
    ∀ j, m'.memory[j]? = if a ≤ j ∧ j < a + v.size then v[j - a]? else m.memory[j]?

theorem load_bounded {a : UInt64} (small : m.memory.size < 2 ^ 63)
    (found : m.address cfg x = .ok a) {n : Nat} (short : n ≤ 64) :
    Bounded m.memory.size a.toNat n (m.Read a.toNat n) (m.load cfg x n) := by
  refine bounded_bind small short found fun inside => ⟨_, rfl, ?_, fun i early => ?_⟩
  · rw [Array.size_extract]
    omega
  · rw [Array.getElem?_extract, if_pos (by omega)]

theorem store_bounded {a : UInt64} (small : m.memory.size < 2 ^ 63)
    (found : m.address cfg x = .ok a) {v : Bytes} (short : v.size ≤ 64) :
    Bounded m.memory.size a.toNat v.size (m.Stored a.toNat v) (m.store cfg x v) := by
  refine bounded_bind small short found fun inside => ⟨_, rfl, rfl, rfl, fun j => ?_⟩
  rw [Bytes.getElem?_write (by simpa using inside)]
  simp

/-- Every access of at most 64 bytes through registers that exist is bounded. It is done exactly if
its bytes exist as exact numbers, it touches these alone, and it is refused otherwise. The exceptions
are the accesses that wrap, which trap. With addresses of 32 bits there are none. -/
theorem accesses_bounded (bits : cfg.addressBits = 32 ∨ cfg.addressBits = 64)
    (small : m.memory.size < 2 ^ 63) (base : m.base x.base = .ok b)
    (index : m.indexValue x = .ok k) :
    let a := effective cfg x b k
    let size := m.memory.size
    (∀ n ≤ 64, Bounded size a n (m.Read a n) (m.load cfg x n)) ∧
    (∀ v : Bytes, v.size ≤ 64 → Bounded size a v.size (m.Stored a v) (m.store cfg x v)) ∧
    (cfg.addressBits = 32 → ∀ n ≤ 64, ¬ Wraps size a n) := by
  intro a size
  obtain ⟨c, found, address⟩ := address_eq_effective bits base index
  have same : c.toNat = a := address
  refine ⟨fun n short => ?_, fun v short => ?_, fun narrow n short wraps => ?_⟩
  · rw [← same]
    exact load_bounded small found short
  · rw [← same]
    exact store_bounded small found short
  · have below : a < 2 ^ 32 := by
      simp only [a, effective, narrow]
      omega
    unfold Wraps at wraps
    omega

/-- The last sixteen bytes of a memory, through an index below zero, and one byte more. -/
theorem accesses_bounded_last :
    let cfg := Config.x86 Level.sse2 "sse2" "128" 16 1
    let m := { Machine.init cfg (.zeros 64) with
      bases := .ofFn fun r => if r.val = 5 then 16 else if r.val = 2 then 0xFFFFFFFFFFFFFFF8 else 0 }
    let x : Mem := .indexed (.base 5) (.base 2) ⟨40, .dp⟩
    (cfg.addressBits = 64 ∧ m.memory.size < 2 ^ 63 ∧ m.base x.base = .ok 16 ∧
      m.indexValue x = .ok 0xFFFFFFFFFFFFFFF8) ∧
    (∃ v, m.load cfg x 16 = .ok v ∧ m.Read 48 16 v) ∧
      m.load cfg x 17 = Fault.fail (.memoryBounds 48 17) ∧
      ∃ m', m.store cfg x (.zeros 16) = .ok m' ∧ m.Stored 48 (.zeros 16) m' := by
  intro cfg m x
  have small : m.memory.size < 2 ^ 63 := by decide
  have size : m.memory.size = 64 := rfl
  have place : effective cfg x 16 0xFFFFFFFFFFFFFFF8 = 48 := by decide +kernel
  have bits : cfg.addressBits = 32 ∨ cfg.addressBits = 64 := .inr rfl
  have base : m.base x.base = .ok 16 := rfl
  have index : m.indexValue x = .ok 0xFFFFFFFFFFFFFFF8 := rfl
  have ⟨loads, stores, _⟩ := accesses_bounded bits small base index
  rw [place, size] at loads stores
  refine ⟨⟨rfl, small, base, index⟩, ?_, ?_, ?_⟩
  · exact (loads 16 (by decide)).inside (by decide)
  · exact (loads 17 (by decide)).outside (by decide) (by decide)
  · exact (stores (.zeros 16) (by decide)).inside (by decide)

/-- Sixteen bytes from the fourth byte below zero on lie outside every memory, but the end of the
access is the twelfth byte again. -/
theorem wrapped_access_traps :
    let cfg := Config.x86 Level.sse2 "sse2" "128" 16 1
    let m := { Machine.init cfg (.zeros 16) with
      bases := .ofFn fun r => if r.val = 3 then 0xFFFFFFFFFFFFFFFC else 0 }
    let x : Mem := .plain (.base 3) ⟨0, .dp⟩
    m.memory.size < effective cfg x 0xFFFFFFFFFFFFFFFC 0 + 16 ∧
      m.load cfg x 16 = .error .trap ∧ m.store cfg x (.zeros 16) = .error .trap := by
  intro cfg m x
  have small : m.memory.size < 2 ^ 63 := by decide
  have found : m.address cfg x = .ok 0xFFFFFFFFFFFFFFFC := rfl
  have wraps : Wraps m.memory.size (0xFFFFFFFFFFFFFFFC : UInt64).toNat 16 := by decide +kernel
  refine ⟨by decide +kernel, ?_, ?_⟩
  · exact (load_bounded small found (by decide)).wrapped wraps
  · exact (store_bounded small found (by decide)).wrapped wraps

end Machine

end LaneAsm
