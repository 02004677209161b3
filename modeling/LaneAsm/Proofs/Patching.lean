import LaneAsm.Buffer
import LaneAsm.Proofs.Bytes

/-!
Resolving references. A reference has a window of four bytes and a field at its start, which holds the
distance to a label. Where the windows lie inside the code and do not overlap, resolving them in order
writes every field (`patchAll_ok`) or stops at the first reference that cannot be resolved
(`patchAll_refused`), and touches nothing else (`patchAll_frame`).
-/
namespace LaneAsm

/-- How the branches of a target are written: with a distance in bytes, or with a distance in words
and a slot after the branch. -/
inductive Branching where
  | x86
  | mips
deriving Repr, DecidableEq

namespace Branching

def kind : Branching → FixupKind
  | .x86 => .rel32
  | .mips => .mips16

/-- The bytes of a field. -/
def width : Branching → Nat
  | .x86 => 4
  | .mips => 2

/-- What distances are counted in, and what code is laid out in. -/
def unit : Branching → Nat
  | .x86 => 1
  | .mips => 4

/-- The bytes of the slot after a branch. -/
def slot : Branching → Nat
  | .x86 => 0
  | .mips => 4

/-- The distances that fit lie below the limit and not below its negative. -/
def limit : Branching → Int
  | .x86 => 2 ^ 31
  | .mips => 2 ^ 17

def Reaches (br : Branching) (rel : Int) : Prop := -br.limit ≤ rel ∧ rel < br.limit

instance (br : Branching) (rel : Int) : Decidable (br.Reaches rel) :=
  inferInstanceAs (Decidable (_ ∧ _))

/-- The signed number in a field. -/
def field (br : Branching) (code : Bytes) (site : Nat) : Int :=
  Int.bmod (code.readWord site br.width).toNat (256 ^ br.width)

/-- The cause for which a distance is refused. -/
def tooFar : Branching → Int → Cause
  | .x86 => .branchDisplacement
  | .mips => .branchOffset

/-- Byte `i` belongs to the field of a reference. -/
def Covers (br : Branching) (f : Fixup) (i : Nat) : Prop := f.site ≤ i ∧ (i : Int) < f.site + br.width

/-- A reference whose window lies within `size` bytes, where its distance is counted in whole units
from the end of the window. -/
structure Placed (br : Branching) (labels : Array (Option Nat)) (size : Nat) (f : Fixup) : Prop where
  kind : f.kind = br.kind
  least : 0 ≤ f.site
  origin : f.origin = f.site + 4
  inside : f.origin ≤ size
  whole : ∀ t, Buffer.target? labels f = some t → t ≤ size ∧ (br.unit : Int) ∣ t - f.origin

/-- A reference that can be resolved: its label is bound within reach. -/
def Resolves (br : Branching) (labels : Array (Option Nat)) (f : Fixup) : Prop :=
  ∃ t, Buffer.target? labels f = some t ∧ br.Reaches (t - f.origin)

/-- Why a reference cannot be resolved. -/
def Refused (br : Branching) (labels : Array (Option Nat)) (f : Fixup) (c : Cause) : Prop :=
  Buffer.target? labels f = none ∧ c = .neverBound f.label.name ∨
    ∃ t, Buffer.target? labels f = some t ∧ ¬ br.Reaches (t - f.origin) ∧ c = br.tooFar (t - f.origin)

end Branching

/-! ## Bytes -/

namespace Bytes

theorem readWord_congr {v w : Bytes} {o n : Nat} (same : ∀ i, o ≤ i → i < o + n → v[i]? = w[i]?) :
    v.readWord o n = w.readWord o n := by
  induction n generalizing o with
  | zero => rfl
  | succ n ih =>
    have rest : v.readWord (o + 1) n = w.readWord (o + 1) n :=
      ih fun i above below => same i (by omega) (by omega)
    have here := same o (Nat.le_refl o) (by omega)
    rw [readWord, readWord, rest, Array.getD_eq_getD_getElem?, Array.getD_eq_getD_getElem?, here]

theorem readWord_write {v : Bytes} {o n : Nat} (x : UInt64) (short : n ≤ 8) (inside : o + n ≤ v.size) :
    ((v.write o (littleEndian n x)).readWord o n).toNat = x.toNat % 256 ^ n := by
  have length := length_littleEndian n x
  have written := toList_write v o (littleEndian n x) (by rw [length]; exact inside)
  have front : (v.toList.take o).length = o := by
    rw [List.length_take, Array.length_toList]
    omega
  have read : ((v.write o (littleEndian n x)).toList.drop o).take n = littleEndian n x := by
    rw [written, List.append_assoc, List.drop_left' front]
    exact List.take_left' length
  rw [readWord_eq, read, toNat_wordOf_littleEndian n x short]

theorem getElem?_write_of_outside {v : Bytes} {o : Nat} {bs : List UInt8} {i : Nat}
    (outside : i < o ∨ o + bs.length ≤ i) : (v.write o bs)[i]? = v[i]? := by
  induction bs generalizing v o with
  | nil => rfl
  | cons b bs ih =>
    rw [List.length_cons] at outside
    rw [write, ih (by omega), Array.getElem?_setIfInBounds_ne (by omega)]

end Bytes

/-! ## Fields -/

namespace Branching

variable {br : Branching} {labels : Array (Option Nat)} {code : Bytes} {f : Fixup}

/-- A field reads back as the number that was written into it, where the number fits. -/
theorem field_write {k : Nat} {v : Int} (inside : k + 4 ≤ code.size)
    (fits : -br.limit ≤ br.unit * v ∧ br.unit * v < br.limit) :
    br.field (code.write k (littleEndian br.width (UInt64.ofInt v))) k = v := by
  have within : k + br.width ≤ code.size := by
    cases br <;> simp only [width] <;> omega
  have read := Bytes.readWord_write (UInt64.ofInt v) (by cases br <;> decide) within
  have value := toNat_ofInt v
  rw [field, read]
  cases br with
  | x86 =>
    simp only [limit, unit, width] at fits ⊢
    simp only [Int.bmod]
    omega
  | mips =>
    simp only [limit, unit, width] at fits ⊢
    simp only [Int.bmod]
    omega

theorem wrap64_eq_self {n : Int} (least : -2 ^ 63 ≤ n) (below : n < 2 ^ 63) : wrap64 n = n := by
  unfold wrap64
  exact Int.bmod_eq_of_le (by omega) (by omega)

/-- What resolving one reference does. -/
theorem patch_eq (placed : br.Placed labels code.size f) (short : code.size < 2 ^ 63) :
    Buffer.patch labels code f = match Buffer.target? labels f with
      | none => .error (.error (.ofCause (.neverBound f.label.name)))
      | some t =>
        if br.Reaches (t - f.origin) then
          .ok (code.write f.site.toNat (littleEndian br.width (UInt64.ofInt ((t - f.origin) / br.unit))))
        else .error (.error (.ofCause (br.tooFar (t - f.origin)))) := by
  obtain ⟨kind, least, origin, inside, whole⟩ := placed
  unfold Buffer.patch
  cases target : Buffer.target? labels f with
  | none => rfl
  | some t =>
    obtain ⟨below, aligned⟩ := whole t target
    have unwrapped : wrap64 (t - f.origin) = t - f.origin := wrap64_eq_self (by omega) (by omega)
    have window : (decide (0 ≤ f.site) && decide (f.site + 4 ≤ (code.size : Int))) = true := by
      simp only [Bool.and_eq_true, decide_eq_true_eq]
      omega
    simp only [unwrapped, window, kind, if_true]
    generalize (t : Int) - f.origin = rel at aligned ⊢
    cases br with
    | x86 =>
      have near : (rel < -2 ^ 31 ∨ 2 ^ 31 ≤ rel) ↔ ¬ Branching.x86.Reaches rel := by
        simp only [Reaches, limit]
        omega
      by_cases fits : Branching.x86.Reaches rel
      · rw [if_pos fits]
        simp only [Branching.kind, near, fits, not_true_eq_false, if_false]
        simp only [width, unit, Int.natCast_one, Int.ediv_one]
      · rw [if_neg fits]
        simp only [Branching.kind, near, fits, not_false_eq_true, if_true]
        rfl
    | mips =>
      have near : (rel % 4 ≠ 0 ∨ rel / 4 < -2 ^ 15 ∨ 2 ^ 15 ≤ rel / 4) ↔
          ¬ Branching.mips.Reaches rel := by
        simp only [unit] at aligned
        simp only [Reaches, limit]
        omega
      by_cases fits : Branching.mips.Reaches rel
      · rw [if_pos fits]
        simp only [Branching.kind, near, fits, not_true_eq_false, if_false]
        rfl
      · rw [if_neg fits]
        simp only [Branching.kind, near, fits, not_false_eq_true, if_true]
        rfl

theorem patch_ok (placed : br.Placed labels code.size f) (short : code.size < 2 ^ 63)
    {t : Nat} (target : Buffer.target? labels f = some t) (near : br.Reaches (t - f.origin)) :
    ∃ code', Buffer.patch labels code f = .ok code' ∧ code'.size = code.size ∧
      f.origin + br.unit * br.field code' f.site.toNat = t := by
  have done := patch_eq placed short
  rw [target] at done
  dsimp only at done
  rw [if_pos near] at done
  obtain ⟨kind, least, origin, inside, whole⟩ := placed
  have counted : (br.unit : Int) * ((t - f.origin) / br.unit) = t - f.origin :=
    Int.mul_ediv_cancel' (whole t target).2
  refine ⟨_, done, Bytes.size_write .., ?_⟩
  rw [field_write (by omega) (by rw [counted]; exact near), counted]
  omega

theorem patch_refused (placed : br.Placed labels code.size f) (short : code.size < 2 ^ 63)
    {c : Cause} (refused : br.Refused labels f c) :
    Buffer.patch labels code f = .error (.error (.ofCause c)) := by
  rw [patch_eq placed short]
  rcases refused with ⟨unbound, rfl⟩ | ⟨t, target, far, rfl⟩
  · rw [unbound]
  · rw [target]
    exact if_neg far

/-! ## Resolving in order -/

theorem resolves_or_refused (br : Branching) (labels : Array (Option Nat)) (f : Fixup) :
    br.Resolves labels f ∨ ∃ c, br.Refused labels f c := by
  cases target : Buffer.target? labels f with
  | none => exact .inr ⟨_, .inl ⟨target, rfl⟩⟩
  | some t =>
    by_cases near : br.Reaches (t - f.origin)
    · exact .inl ⟨t, target, near⟩
    · exact .inr ⟨_, .inr ⟨t, target, near, rfl⟩⟩

/-- All references can be resolved, or there is a first that cannot. -/
theorem all_resolve_or_refused (br : Branching) (labels : Array (Option Nat)) (fs : List Fixup) :
    (∀ f ∈ fs, br.Resolves labels f) ∨ ∃ before f after c, fs = before ++ f :: after ∧
      (∀ g ∈ before, br.Resolves labels g) ∧ br.Refused labels f c := by
  induction fs with
  | nil => exact .inl (List.forall_mem_nil _)
  | cons f fs ih =>
    rcases resolves_or_refused br labels f with first | ⟨c, refused⟩
    · rcases ih with rest | ⟨before, g, after, c, rfl, resolve, refused⟩
      · exact .inl (List.forall_mem_cons.2 ⟨first, rest⟩)
      · exact .inr ⟨f :: before, g, after, c, rfl, List.forall_mem_cons.2 ⟨first, resolve⟩, refused⟩
    · exact .inr ⟨[], f, fs, c, rfl, List.forall_mem_nil _, refused⟩

theorem patch_frame {code' : Bytes} (kind : f.kind = br.kind)
    (patched : Buffer.patch labels code f = .ok code') :
    code'.size = code.size ∧ ∀ i, ¬ br.Covers f i → code'[i]? = code[i]? := by
  have written (x : UInt64) (least : 0 ≤ f.site) :
      (code.write f.site.toNat (littleEndian br.width x)).size = code.size ∧ ∀ i, ¬ br.Covers f i →
        (code.write f.site.toNat (littleEndian br.width x))[i]? = code[i]? := by
    refine ⟨Bytes.size_write .., fun i outside => Bytes.getElem?_write_of_outside ?_⟩
    rw [length_littleEndian]
    unfold Covers at outside
    omega
  unfold Buffer.patch at patched
  split at patched
  · cases patched
  · simp only [kind] at patched
    cases br with
    | x86 | mips =>
      simp only [Branching.kind] at patched
      split at patched
      · cases patched
      split at patched
      · next inside =>
        cases patched
        exact written _ (by simp at inside; omega)
      · cases patched

/-- Nothing but fields is written, however it ends. -/
theorem patchAll_frame {fs : List Fixup} (kinds : ∀ f ∈ fs, f.kind = br.kind) :
    (Buffer.patchAll labels fs code).2.size = code.size ∧
      ∀ i, (∀ f ∈ fs, ¬ br.Covers f i) → (Buffer.patchAll labels fs code).2[i]? = code[i]? := by
  induction fs generalizing code with
  | nil => exact ⟨rfl, fun _ _ => rfl⟩
  | cons f fs ih =>
    obtain ⟨here, rest⟩ := List.forall_mem_cons.1 kinds
    rw [Buffer.patchAll]
    split
    · next code' patched =>
      obtain ⟨size, frame⟩ := patch_frame here patched
      obtain ⟨size', frame'⟩ := ih rest
      refine ⟨size'.trans size, fun i outside => ?_⟩
      obtain ⟨first, others⟩ := List.forall_mem_cons.1 outside
      exact (frame' i others).trans (frame i first)
    · exact ⟨rfl, fun _ _ => rfl⟩

/-- Where every reference can be resolved, every field ends up with the distance to its label. -/
theorem patchAll_ok {fs : List Fixup} (placed : ∀ f ∈ fs, br.Placed labels code.size f)
    (apart : fs.Pairwise fun f g => f.origin ≤ g.site) (short : code.size < 2 ^ 63)
    (resolve : ∀ f ∈ fs, br.Resolves labels f) :
    (Buffer.patchAll labels fs code).1 = .ok () ∧ ∀ f ∈ fs, ∃ t, Buffer.target? labels f = some t ∧
      f.origin + br.unit * br.field (Buffer.patchAll labels fs code).2 f.site.toNat = t := by
  induction fs generalizing code with
  | nil => exact ⟨rfl, List.forall_mem_nil _⟩
  | cons f fs ih =>
    obtain ⟨here, rest⟩ := List.forall_mem_cons.1 placed
    obtain ⟨⟨t, target, near⟩, others⟩ := List.forall_mem_cons.1 resolve
    obtain ⟨later, apart⟩ := List.pairwise_cons.1 apart
    obtain ⟨code', patched, size, written⟩ := patch_ok here short target near
    have rest' : ∀ f ∈ fs, br.Placed labels code'.size f := size.symm ▸ rest
    have short' : code'.size < 2 ^ 63 := size.symm ▸ short
    obtain ⟨ended, fields⟩ := ih rest' apart short' others
    rw [Buffer.patchAll, patched]
    refine ⟨ended, List.forall_mem_cons.2 ⟨⟨t, target, ?_⟩, fields⟩⟩
    -- The fields of the references after this one lie behind its window.
    have kept : br.field (Buffer.patchAll labels fs code').2 f.site.toNat
        = br.field code' f.site.toNat := by
      have narrow : br.width ≤ 4 := by cases br <;> decide
      have least := here.least
      have origin := here.origin
      unfold field
      have kinds : ∀ g ∈ fs, g.kind = br.kind := fun g member => (rest g member).kind
      rw [Bytes.readWord_congr fun i above below => (patchAll_frame kinds).2 i ?_]
      intro g member
      have behind := later g member
      unfold Covers
      omega
    rw [kept]
    exact written

theorem patchAll_refused {before after : List Fixup}
    (placed : ∀ g ∈ before ++ f :: after, br.Placed labels code.size g) (short : code.size < 2 ^ 63)
    (resolve : ∀ g ∈ before, br.Resolves labels g) {c : Cause} (refused : br.Refused labels f c) :
    (Buffer.patchAll labels (before ++ f :: after) code).1 = .error (.error (.ofCause c)) := by
  induction before generalizing code with
  | nil =>
    rw [List.nil_append, Buffer.patchAll, patch_refused (placed f List.mem_cons_self) short refused]
  | cons g before ih =>
    obtain ⟨here, rest⟩ := List.forall_mem_cons.1 placed
    obtain ⟨⟨t, target, near⟩, others⟩ := List.forall_mem_cons.1 resolve
    obtain ⟨code', patched, size, -⟩ := patch_ok here short target near
    rw [List.cons_append, Buffer.patchAll, patched]
    exact ih (size.symm ▸ rest) (size.symm ▸ short) others

end Branching

end LaneAsm
