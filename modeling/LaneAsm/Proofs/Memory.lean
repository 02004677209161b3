import LaneAsm.Operand.Check
import LaneAsm.Proofs.Bytes
import LaneAsm.Proofs.Machine

/-!
Memory accesses of the reference machine. In a memory that a 64-bit size can describe, an access
succeeds exactly when it lies inside as exact numbers (`locate_eq_ok`), and an access splits into
two that touch.
-/
namespace LaneAsm

theorem Bytes.write_append (v : Bytes) (o : Nat) (bs cs : List UInt8) :
    v.write o (bs ++ cs) = (v.write o bs).write (o + bs.length) cs := by
  induction bs generalizing v o with
  | nil => rfl
  | cons b bs ih =>
    rw [List.cons_append, write, ih, write, List.length_cons, Nat.add_assoc, Nat.add_comm 1]

namespace Machine

variable {cfg : Config} {m : Machine}

/-- Sizes and addresses of 64 bits do not wrap inside a memory of less than 2^64 bytes. -/
theorem locate_eq_ok {x : Mem} {n o : Nat} (small : m.memory.size < 2 ^ 64) :
    m.locate cfg x n = .ok o ↔
      ∃ a, m.address cfg x = .ok a ∧ a.toNat = o ∧ o + n ≤ m.memory.size := by
  unfold locate
  rw [bind_eq_ok]
  constructor
  · rintro ⟨a, found, located⟩
    split at located
    · cases located
    · split at located
      · cases located
      · cases located
        exact ⟨a, found, rfl, by omega⟩
  · rintro ⟨a, found, rfl, inside⟩
    have whole : (UInt64.ofNat m.memory.size).toNat = m.memory.size := by
      rw [UInt64.toNat_ofNat']
      exact Nat.mod_eq_of_lt small
    have last : (a + UInt64.ofNat n).toNat = a.toNat + n := by
      rw [UInt64.toNat_add, UInt64.toNat_ofNat']
      omega
    refine ⟨a, found, ?_⟩
    rw [if_neg, if_neg (by omega)]
    · rfl
    · rw [UInt64.lt_iff_toNat_lt, whole, last]
      omega

/-- Whatever follows an access that is located, follows at its address. -/
theorem located_eq_ok {β : Type} {x : Mem} {n : Nat} {f : Nat → Except Fault β} {b : β}
    (small : m.memory.size < 2 ^ 64) :
    m.locate cfg x n >>= f = .ok b ↔
      ∃ a, m.address cfg x = .ok a ∧ a.toNat + n ≤ m.memory.size ∧ f a.toNat = .ok b := by
  rw [bind_eq_ok]
  constructor
  · rintro ⟨o, located, done⟩
    obtain ⟨a, found, rfl, inside⟩ := (locate_eq_ok small).mp located
    exact ⟨a, found, inside, done⟩
  · rintro ⟨a, found, inside, done⟩
    exact ⟨a.toNat, (locate_eq_ok small).mpr ⟨a, found, rfl, inside⟩, done⟩

theorem load_eq_ok {x : Mem} {n : Nat} {v : Bytes} (small : m.memory.size < 2 ^ 64) :
    m.load cfg x n = .ok v ↔ ∃ a, m.address cfg x = .ok a ∧ a.toNat + n ≤ m.memory.size ∧
      v = m.memory.extract a.toNat (a.toNat + n) := by
  unfold load
  simp only [located_eq_ok small, pure, Except.pure, Except.ok.injEq, eq_comm]

theorem store_eq_ok {x : Mem} {v : Bytes} {m' : Machine} (small : m.memory.size < 2 ^ 64) :
    m.store cfg x v = .ok m' ↔ ∃ a, m.address cfg x = .ok a ∧
      a.toNat + v.size ≤ m.memory.size ∧
      m' = { m with memory := m.memory.write a.toNat v.toList } := by
  unfold store
  simp only [located_eq_ok small, pure, Except.pure, Except.ok.injEq, eq_comm]

/-- The number of addresses. -/
def addresses (cfg : Config) : Nat := if cfg.addressBits = 32 then 2 ^ 32 else 2 ^ 64

/-- The bits of a sum that are an address. -/
def cut (cfg : Config) (a : UInt64) : UInt64 :=
  if cfg.addressBits = 32 then a &&& 0xFFFFFFFF else a

theorem toNat_cut (a : UInt64) : (cut cfg a).toNat = a.toNat % addresses cfg := by
  unfold cut addresses
  split
  · rw [UInt64.toNat_and]
    exact Nat.and_two_pow_sub_one_eq_mod a.toNat 32
  · exact (Nat.mod_eq_of_lt a.toNat_lt).symm

theorem cut_add {a : UInt64} {n : Nat} (inside : (cut cfg a).toNat + n < addresses cfg) :
    (cut cfg (a + UInt64.ofNat n)).toNat = (cut cfg a).toNat + n := by
  have divides : addresses cfg ∣ 2 ^ 64 := by
    unfold addresses
    split
    · exact Nat.pow_dvd_pow 2 (by decide)
    · exact Nat.dvd_refl _
  rw [toNat_cut] at inside ⊢
  rw [UInt64.toNat_add, UInt64.toNat_ofNat', Nat.add_mod_mod, Nat.mod_mod_of_dvd _ divides,
    ← Nat.mod_add_mod, Nat.mod_eq_of_lt inside, toNat_cut]

theorem ofInt_wrap64 (k : Int) (n : Nat) :
    UInt64.ofInt (wrap64 (k + n)) = UInt64.ofInt k + UInt64.ofNat n := by
  have plain : UInt64.ofInt (wrap64 (k + n)) = UInt64.ofInt (k + n) := by
    rw [UInt64.ofInt, UInt64.ofInt, wrap64]
    congr 2
    exact Int.bmod_emod
  rw [plain, UInt64.ofInt_add]
  congr 1
  apply UInt64.toNat_inj.mp
  rw [UInt64.ofInt, UInt64.toNat_ofNat', UInt64.toNat_ofNat']
  omega

/-- What the index register of a reference adds. -/
def indexValue (m : Machine) (x : Mem) : Except Fault UInt64 :=
  match x.index with
  | some i => m.base i
  | none => .ok 0

theorem address_eq_ok {x : Mem} {a : UInt64} :
    m.address cfg x = .ok a ↔ ∃ b k, m.base x.base = .ok b ∧ m.indexValue x = .ok k ∧
      a = cut cfg (b + UInt64.ofInt x.disp.value + k) := by
  unfold address indexValue
  rw [bind_eq_ok]
  constructor
  · rintro ⟨b, base, found⟩
    cases index : x.index with
    | none =>
      rw [index] at found
      cases found
      exact ⟨b, 0, base, rfl, rfl⟩
    | some i =>
      rw [index] at found
      obtain ⟨k, other, found⟩ := bind_eq_ok.mp found
      cases found
      exact ⟨b, k, base, other, rfl⟩
  · rintro ⟨b, k, base, index, rfl⟩
    refine ⟨b, base, ?_⟩
    cases named : x.index with
    | none =>
      rw [named] at index
      cases index
      rfl
    | some i =>
      rw [named] at index
      exact bind_eq_ok.mpr ⟨k, index, rfl⟩

/-- The reference some bytes further on addresses what lies there, as long as it does not wrap. -/
theorem address_offset {x z : Mem} {n : Nat} {a : UInt64} (moved : x.offset n = .ok z)
    (found : m.address cfg x = .ok a) (inside : a.toNat + n < addresses cfg) :
    ∃ b, m.address cfg z = .ok b ∧ b.toNat = a.toNat + n := by
  obtain ⟨b, k, base, index, rfl⟩ := address_eq_ok.mp found
  unfold Mem.offset at moved
  dsimp only at moved
  split at moved
  · cases moved
    refine ⟨cut cfg (b + UInt64.ofInt x.disp.value + k + UInt64.ofNat n), ?_, cut_add inside⟩
    refine address_eq_ok.mpr ⟨b, k, base, index, ?_⟩
    rw [ofInt_wrap64, ← UInt64.add_assoc, UInt64.add_assoc _ k, UInt64.add_comm k,
      ← UInt64.add_assoc]
  · cases moved

end Machine

end LaneAsm
