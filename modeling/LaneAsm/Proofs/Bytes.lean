import LaneAsm.Bytes

/-!
Little-endian words. `wordOf` spells a word from its bytes; it undoes `littleEndian` up to the range
of the bytes, and reading and writing a byte string are stated through the list of its bytes.
-/
namespace LaneAsm

/-- The word that bytes spell, the lowest first. -/
def wordOf : List UInt8 → UInt64
  | [] => 0
  | b :: bs => b.toUInt64 ||| (wordOf bs <<< 8)

theorem length_littleEndian (n : Nat) (x : UInt64) : (littleEndian n x).length = n := by
  induction n generalizing x with
  | zero => rfl
  | succ n ih => simp [littleEndian, ih]

private theorem toNat_wordOf_cons (b : UInt8) (bs : List UInt8) :
    (wordOf (b :: bs)).toNat = (b.toNat + 256 * (wordOf bs).toNat) % 2 ^ 64 := by
  have small : b.toNat < 2 ^ 8 := b.toNat_lt
  have joined : b.toNat ||| (wordOf bs).toNat <<< 8 = b.toNat + 256 * (wordOf bs).toNat := by
    rw [Nat.or_comm, ← Nat.shiftLeft_add_eq_or_of_lt small, Nat.shiftLeft_eq]
    omega
  simp only [wordOf, UInt64.toNat_or, UInt8.toNat_toUInt64, UInt64.toNat_shiftLeft]
  rw [← joined, Nat.or_mod_two_pow, Nat.mod_eq_of_lt (show b.toNat < 2 ^ 64 by omega)]
  rfl

theorem wordOf_lt (bs : List UInt8) (short : bs.length ≤ 8) :
    (wordOf bs).toNat < 256 ^ bs.length := by
  induction bs with
  | nil => simp [wordOf]
  | cons b bs ih =>
    have rest := ih (by simp at short; omega)
    have small : b.toNat < 256 := b.toNat_lt
    have bound : 256 ^ (bs.length + 1) ≤ 2 ^ 64 :=
      Nat.pow_le_pow_right (n := 256) (by decide) short
    rw [toNat_wordOf_cons, List.length_cons]
    rw [Nat.pow_succ] at *
    rw [Nat.mod_eq_of_lt] <;> omega

/-- Where nothing wraps, a word is its lowest byte and 256 times the word of the others. -/
theorem toNat_wordOf (b : UInt8) (bs : List UInt8) (short : bs.length < 8) :
    (wordOf (b :: bs)).toNat = b.toNat + 256 * (wordOf bs).toNat := by
  have rest := wordOf_lt bs (by omega)
  have small : b.toNat < 256 := b.toNat_lt
  have bound : 256 ^ (bs.length + 1) ≤ 2 ^ 64 :=
    Nat.pow_le_pow_right (n := 256) (by decide) (show bs.length + 1 ≤ 8 by omega)
  rw [Nat.pow_succ] at bound
  rw [toNat_wordOf_cons, Nat.mod_eq_of_lt (by omega)]

theorem littleEndian_wordOf (bs : List UInt8) (short : bs.length ≤ 8) :
    littleEndian bs.length (wordOf bs) = bs := by
  induction bs with
  | nil => rfl
  | cons b bs ih =>
    have fits : bs.length < 8 := by simp at short; omega
    have value := toNat_wordOf b bs fits
    have small : b.toNat < 256 := b.toNat_lt
    have low : (wordOf (b :: bs)).toUInt8 = b := by
      apply UInt8.toNat_inj.mp
      rw [UInt64.toNat_toUInt8, value]
      omega
    have high : wordOf (b :: bs) >>> 8 = wordOf bs := by
      apply UInt64.toNat_inj.mp
      rw [UInt64.toNat_shiftRight, value]
      simp [Nat.shiftRight_eq_div_pow]
      omega
    rw [List.length_cons, littleEndian, low, high, ih (by omega)]

theorem toNat_wordOf_take (bs : List UInt8) (n : Nat) (short : bs.length ≤ 8) :
    (wordOf (bs.take n)).toNat = (wordOf bs).toNat % 256 ^ n := by
  induction n generalizing bs with
  | zero => simp [wordOf, Nat.mod_one]
  | succ n ih =>
    cases bs with
    | nil => simp [wordOf]
    | cons b bs =>
      have fits : bs.length < 8 := short
      have small : b.toNat < 256 := b.toNat_lt
      have above : (b.toNat + 256 * (wordOf bs).toNat) / 256 = (wordOf bs).toNat := by omega
      rw [List.take_succ_cons, toNat_wordOf b _ (by simp; omega), toNat_wordOf b bs fits,
        ih bs (by omega), Nat.pow_succ', Nat.mod_mul, above]
      omega

theorem toNat_wordOf_littleEndian (n : Nat) (x : UInt64) (short : n ≤ 8) :
    (wordOf (littleEndian n x)).toNat = x.toNat % 256 ^ n := by
  induction n generalizing x with
  | zero => simp [littleEndian, wordOf, Nat.mod_one]
  | succ n ih =>
    have split : x.toNat % 256 ^ (n + 1) = x.toNat % 256 + 256 * (x.toNat / 256 % 256 ^ n) := by
      rw [Nat.pow_succ, Nat.mul_comm, Nat.mod_mul]
    rw [littleEndian, toNat_wordOf _ _ (by simp [length_littleEndian]; omega), ih _ (by omega)]
    rw [split, UInt64.toNat_toUInt8, UInt64.toNat_shiftRight]
    simp [Nat.shiftRight_eq_div_pow]

theorem toNat_ofInt (v : Int) : ((UInt64.ofInt v).toNat : Int) = v % 2 ^ 64 := by
  rw [UInt64.ofInt, UInt64.toNat_ofNat']
  omega

/-- The low bytes of a word depend on its value modulo their range alone. -/
theorem littleEndian_congr {n : Nat} {x y : UInt64} (short : n ≤ 8)
    (same : x.toNat % 256 ^ n = y.toNat % 256 ^ n) : littleEndian n x = littleEndian n y := by
  have words : wordOf (littleEndian n x) = wordOf (littleEndian n y) := by
    apply UInt64.toNat_inj.mp
    rw [toNat_wordOf_littleEndian n x short, toNat_wordOf_littleEndian n y short, same]
  have back (z : UInt64) : littleEndian n (wordOf (littleEndian n z)) = littleEndian n z := by
    have := littleEndian_wordOf (littleEndian n z) (by simpa [length_littleEndian])
    rwa [length_littleEndian] at this
  rw [← back x, words, back y]

theorem littleEndian_complement (n : Nat) (x : UInt64) (short : n ≤ 8) :
    littleEndian n (~~~x) = (littleEndian n x).map (~~~·) := by
  induction n generalizing x with
  | zero => rfl
  | succ n ih =>
    have small := x.toNat_lt
    have low : (~~~x).toUInt8 = ~~~x.toUInt8 := by
      apply UInt8.toNat_inj.mp
      rw [UInt64.toNat_toUInt8, UInt8.toNat_not, UInt64.toNat_not, UInt64.toNat_toUInt8]
      simp only [UInt64.size, UInt8.size]
      omega
    -- moving a complement down leaves zeros on top, which the low bytes do not see
    have high : littleEndian n (~~~x >>> 8) = littleEndian n (~~~(x >>> 8)) := by
      apply littleEndian_congr (by omega)
      obtain ⟨k, multiple⟩ : 256 ^ n ∣ 256 ^ 7 := Nat.pow_dvd_pow 256 (by omega)
      have value : (~~~(x >>> 8)).toNat = (~~~x >>> 8).toNat + 256 ^ n * (k * 255) := by
        simp only [UInt64.toNat_not, UInt64.toNat_shiftRight, UInt64.size,
          Nat.shiftRight_eq_div_pow, ← Nat.mul_assoc, ← multiple]
        simp
        omega
      rw [value, Nat.add_mul_mod_self_left]
    rw [littleEndian, littleEndian, List.map_cons, low, high, ih _ (by omega)]

namespace Bytes

theorem readWord_eq (v : Bytes) (o n : Nat) :
    v.readWord o n = wordOf ((v.toList.drop o).take n) := by
  induction n generalizing o with
  | zero => rfl
  | succ n ih =>
    rw [readWord, ih]
    by_cases inside : o < v.size
    · have split : v.toList.drop o = v[o] :: v.toList.drop (o + 1) := by
        rw [List.drop_eq_getElem_cons (by simpa using inside)]
        simp
      simp [split, inside, wordOf]
    · have past : v.toList.drop o = [] := by simpa using Nat.le_of_not_lt inside
      have next : v.toList.drop (o + 1) = [] := by simp; omega
      simp [past, next, wordOf, inside]

theorem size_write (v : Bytes) (o : Nat) (bs : List UInt8) : (v.write o bs).size = v.size := by
  induction bs generalizing v o with
  | nil => rfl
  | cons b bs ih => rw [write, ih, Array.size_setIfInBounds]

theorem toList_write (v : Bytes) (o : Nat) (bs : List UInt8) (inside : o + bs.length ≤ v.size) :
    (v.write o bs).toList = v.toList.take o ++ bs ++ v.toList.drop (o + bs.length) := by
  induction bs generalizing v o with
  | nil => simp [write]
  | cons b bs ih =>
    simp only [List.length_cons] at inside
    have here : o < v.toList.length := by simp; omega
    rw [write, ih _ _ (by simp; omega), Array.toList_setIfInBounds, List.take_add_one,
      List.getElem?_set_self here, List.take_set_of_le (Nat.le_refl o),
      List.drop_set_of_lt (by omega)]
    simp [Nat.add_assoc, Nat.add_comm 1]

theorem take_write (v : Bytes) (o : Nat) (bs : List UInt8) (inside : o + bs.length ≤ v.size) :
    (v.write o bs).toList.take (o + bs.length) = v.toList.take o ++ bs := by
  have front : (v.toList.take o ++ bs).length = o + bs.length := by simp; omega
  rw [toList_write v o bs inside, ← front, List.take_left]

theorem drop_write (v : Bytes) (o k : Nat) (bs : List UInt8) (inside : o + bs.length ≤ v.size)
    (past : o + bs.length ≤ k) : (v.write o bs).toList.drop k = v.toList.drop k := by
  have front : (v.toList.take o ++ bs).length = o + bs.length := by simp; omega
  rw [toList_write v o bs inside, List.drop_append, front, List.drop_drop]
  simp [Nat.add_sub_cancel' past]
  omega

theorem getElem?_write {v : Bytes} {o : Nat} {bs : List UInt8}
    (inside : o + bs.length ≤ v.size) (j : Nat) :
    (v.write o bs)[j]? = if o ≤ j ∧ j < o + bs.length then bs[j - o]? else v[j]? := by
  induction bs generalizing v o with
  | nil =>
    rw [write, if_neg]
    simp only [List.length_nil]
    omega
  | cons b bs ih =>
    simp only [List.length_cons] at inside ⊢
    rw [write, ih (by rw [Array.size_setIfInBounds]; omega)]
    by_cases later : o + 1 ≤ j ∧ j < o + 1 + bs.length
    · have next : j - o = (j - (o + 1)) + 1 := by omega
      rw [if_pos later, if_pos (by omega), next, List.getElem?_cons_succ]
    · rw [if_neg later]
      by_cases here : j = o
      · subst here
        rw [if_pos (by omega), Array.getElem?_setIfInBounds_self_of_lt (by omega)]
        simp
      · rw [if_neg (by omega), Array.getElem?_setIfInBounds_ne (by omega)]

end Bytes

end LaneAsm
