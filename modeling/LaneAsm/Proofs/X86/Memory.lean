import LaneAsm.Bytes

/-!
The memory of a processor: a byte for each address of 64 bits. Addresses wrap around, so an area is
told by the distance from its start (`Inside`), and no lemma needs a bound on addresses.
-/
namespace LaneAsm.X86

/-- A byte for each address. -/
abbrev Memory := UInt64 → UInt8

/-- An address lies among the `n` from `a` on. -/
def Inside (a : UInt64) (n : Nat) (c : UInt64) : Prop := (c - a).toNat < n

instance (a : UInt64) (n : Nat) (c : UInt64) : Decidable (Inside a n c) :=
  inferInstanceAs (Decidable (_ < _))

/-- Two areas have no address in common. -/
def Apart (a : UInt64) (n : Nat) (b : UInt64) (k : Nat) : Prop :=
  ∀ c, Inside a n c → ¬Inside b k c

theorem Apart.symm {a b : UInt64} {n k : Nat} (apart : Apart a n b k) : Apart b k a n :=
  fun c second first => apart c first second

theorem toNat_offset_sub (a : UInt64) {i : Nat} (small : i < 2 ^ 64) :
    (a + UInt64.ofNat i - a).toNat = i := by
  rw [UInt64.add_comm, UInt64.add_sub_cancel, UInt64.toNat_ofNat']
  exact Nat.mod_eq_of_lt small

theorem inside_offset {a : UInt64} {n i : Nat} (small : n ≤ 2 ^ 64) (bound : i < n) :
    Inside a n (a + UInt64.ofNat i) := by
  rw [Inside, toNat_offset_sub a (by omega)]
  exact bound

/-- The distance from the start of an area is that from `k` addresses further on, and `k`. -/
theorem distance_offset (a c : UInt64) (k : Nat) :
    (c - a).toNat = ((c - (a + UInt64.ofNat k)).toNat + k) % 2 ^ 64 := by
  have := a.toNat_lt
  have := c.toNat_lt
  rw [UInt64.toNat_sub, UInt64.toNat_sub, UInt64.toNat_add, UInt64.toNat_ofNat']
  omega

/-- The part of an area from `k` on lies inside it. -/
theorem Inside.of_offset {a c : UInt64} {n k size : Nat} (part : Inside (a + UInt64.ofNat k) n c)
    (fits : k + n ≤ size) : Inside a size c := by
  unfold Inside at part ⊢
  rw [distance_offset a c k]
  omega

theorem Inside.mono {a c : UInt64} {n k : Nat} (inside : Inside a n c) (le : n ≤ k) :
    Inside a k c := Nat.lt_of_lt_of_le inside le

theorem Apart.mono {a b : UInt64} {n k n' k' : Nat} (apart : Apart a n b k) (first : n' ≤ n)
    (second : k' ≤ k) : Apart a n' b k' :=
  fun c inside other => apart c (inside.mono first) (other.mono second)

theorem Apart.part {a b : UInt64} {n k j size : Nat} (apart : Apart a size b k)
    (fits : j + n ≤ size) : Apart (a + UInt64.ofNat j) n b k :=
  fun c inside => apart c (inside.of_offset fits)

/-- An area has nothing in common with what follows it. -/
theorem apart_next (a : UInt64) {n k : Nat} (small : n + k ≤ 2 ^ 64) :
    Apart a n (a + UInt64.ofNat n) k := by
  intro c first second
  have distance := distance_offset a c n
  unfold Inside at first second
  omega

namespace Memory

/-- The bytes of an area. -/
def read (m : Memory) (a : UInt64) (n : Nat) : Bytes :=
  Array.ofFn fun i : Fin n => m (a + UInt64.ofNat i)

/-- The memory with bytes from an address on replaced. -/
def write (m : Memory) (a : UInt64) (v : Bytes) : Memory := fun c => v.getD (c - a).toNat (m c)

@[simp] theorem size_read (m : Memory) (a : UInt64) (n : Nat) : (m.read a n).size = n := by
  simp [read]

theorem read_part (m : Memory) (a : UInt64) {k j n : Nat} (fits : k + j ≤ n) :
    (m.read a n).extract k (k + j) = m.read (a + UInt64.ofNat k) j := by
  apply Array.ext
  · simp
    omega
  · intro i first second
    simp [read, UInt64.add_assoc]

theorem read_append (m : Memory) (a : UInt64) (n k : Nat) :
    m.read a (n + k) = m.read a n ++ m.read (a + UInt64.ofNat n) k := by
  apply Array.ext
  · simp
  · intro i first second
    by_cases early : i < n
    · simp [read, Array.getElem_append_left, early]
    · have late : UInt64.ofNat n + UInt64.ofNat (i - n) = UInt64.ofNat i := by
        rw [← UInt64.ofNat_add]
        congr 1
        omega
      rw [Array.getElem_append_right (by simp; omega)]
      simp [read, UInt64.add_assoc, late]

theorem toList_read_take (m : Memory) (a : UInt64) {k n : Nat} (fits : k ≤ n) :
    (m.read a n).toList.take k = (m.read a k).toList := by
  have part := congrArg Array.toList (read_part m a (k := 0) (j := k) (n := n) (by omega))
  simpa using part

theorem write_outside {m : Memory} {a c : UInt64} {v : Bytes} (outside : ¬Inside a v.size c) :
    m.write a v c = m c := by
  simp only [write, Inside, Array.getD] at outside ⊢
  rw [dif_neg outside]

theorem write_inside {m : Memory} {a : UInt64} {v : Bytes} {i : Nat} (small : v.size ≤ 2 ^ 64)
    (bound : i < v.size) : m.write a v (a + UInt64.ofNat i) = v[i] := by
  rw [write, toNat_offset_sub a (show i < 2 ^ 64 by omega), Array.getD, dif_pos bound]
  rfl

/-- Two memories that differ at most inside an area. -/
def Within (a : UInt64) (n : Nat) (m m' : Memory) : Prop := ∀ c, ¬Inside a n c → m' c = m c

theorem Within.trans {a : UInt64} {n : Nat} {m₁ m₂ m₃ : Memory} (first : Within a n m₁ m₂)
    (second : Within a n m₂ m₃) : Within a n m₁ m₃ :=
  fun c outside => (second c outside).trans (first c outside)

theorem read_congr {m m' : Memory} {b : UInt64} {k : Nat} (small : k ≤ 2 ^ 64)
    (same : ∀ c, Inside b k c → m' c = m c) : m'.read b k = m.read b k := by
  unfold read
  congr 1
  funext i
  exact same _ (inside_offset small i.isLt)

theorem Within.read {a b : UInt64} {n k : Nat} {m m' : Memory} (within : Within a n m m')
    (apart : Apart b k a n) (small : k ≤ 2 ^ 64) : m'.read b k = m.read b k :=
  read_congr small fun c inside => within c (apart c inside)

/-- What is written into a part of an area stays inside it. -/
theorem within_write (m : Memory) {a b : UInt64} {v : Bytes} {n : Nat}
    (part : ∀ c, Inside b v.size c → Inside a n c) : Within a n m (m.write b v) :=
  fun _ outside => write_outside fun inside => outside (part _ inside)

/-- What was written is read back, and so is every part of it. -/
theorem read_write_part {m : Memory} {a : UInt64} {v : Bytes} {k n : Nat}
    (small : v.size ≤ 2 ^ 64) (fits : k + n ≤ v.size) :
    (m.write a v).read (a + UInt64.ofNat k) n = v.extract k (k + n) := by
  apply Array.ext
  · simp
    omega
  · intro i first second
    rw [size_read] at first
    simp only [read, Array.getElem_ofFn, Array.getElem_extract]
    rw [UInt64.add_assoc, ← UInt64.ofNat_add]
    exact write_inside small (by omega)

theorem read_write {m : Memory} {a : UInt64} {v : Bytes} (small : v.size ≤ 2 ^ 64) :
    (m.write a v).read a v.size = v := by
  have whole := read_write_part (m := m) (a := a) (k := 0) small
    (Nat.le_of_eq (Nat.zero_add v.size))
  simpa using whole

theorem read_write_after {m : Memory} {a : UInt64} {v : Bytes} {k n : Nat} (past : v.size ≤ k)
    (small : k + n ≤ 2 ^ 64) :
    (m.write a v).read (a + UInt64.ofNat k) n = m.read (a + UInt64.ofNat k) n := by
  unfold read
  congr 1
  funext i
  apply write_outside
  rw [UInt64.add_assoc, ← UInt64.ofNat_add, Inside, toNat_offset_sub a (by omega)]
  omega

/-- Bytes written right after others are written together with them. -/
theorem write_append {m : Memory} {a : UInt64} {v w : Bytes} (small : v.size + w.size ≤ 2 ^ 64) :
    (m.write a v).write (a + UInt64.ofNat v.size) w = m.write a (v ++ w) := by
  funext c
  have distance := distance_offset a c v.size
  have range := (c - (a + UInt64.ofNat v.size)).toNat_lt
  by_cases late : Inside (a + UInt64.ofNat v.size) w.size c
  · unfold Inside at late
    have past : (c - a).toNat = v.size + (c - (a + UInt64.ofNat v.size)).toNat := by omega
    simp [write, past, late]
  · rw [write_outside late]
    unfold Inside at late
    by_cases early : (c - a).toNat < v.size
    · simp [write, early, Array.getElem_append_left, show (c - a).toNat < v.size + w.size by omega]
    · simp [write, early, show ¬(c - a).toNat < v.size + w.size by omega]

end Memory

end LaneAsm.X86
