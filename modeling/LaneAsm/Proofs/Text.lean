import LaneAsm.Text.Blank
import LaneAsm.Text.Hex
import LaneAsm.Text.Integer
import LaneAsm.Text.Split

/-!
Texts that were put together and are taken apart again: parts with a symbol between them that they
do not hold, lines, white space at the ends, and numbers in hexadecimal.
-/
namespace LaneAsm.Text

variable {α : Type} {s t : List α}

theorem not_infix_of_not_mem {c : α} (absent : c ∉ s) (word : List α) : ¬ (c :: word) <:+: s :=
  fun found => absent (found.subset List.mem_cons_self)

/-- A symbol twice in a row lies on one side of any other symbol. -/
theorem twice_infix_append {c d : α} (other : d ≠ c) (found : [c, c] <:+: s ++ d :: t) :
    [c, c] <:+: s ∨ [c, c] <:+: t := by
  induction s with
  | nil =>
    rcases List.infix_cons_iff.1 found with here | later
    · exact absurd (List.cons_prefix_cons.1 here).1.symm other
    · exact .inr later
  | cons a s ih =>
    rcases List.infix_cons_iff.1 found with here | later
    · obtain ⟨rfl, next⟩ := List.cons_prefix_cons.1 here
      cases s with
      | nil => exact absurd (List.cons_prefix_cons.1 next).1.symm other
      | cons b s =>
        obtain ⟨rfl, -⟩ := List.cons_prefix_cons.1 next
        exact .inl ⟨[], s, rfl⟩
    · rcases ih later with left | right
      · exact .inl (List.infix_cons_iff.2 (.inr left))
      · exact .inr right

section
variable [DecidableEq α] {sep : α}

theorem passed (free : sep ∉ s) : ∀ a ∈ s, decide (a ≠ sep) = true := by
  intro a member
  simpa using fun same : a = sep => free (same ▸ member)

theorem dropWhile_eq_cons (free : sep ∉ s) (t : List α) :
    (s ++ sep :: t).dropWhile (· ≠ sep) = sep :: t := by
  rw [List.dropWhile_append_of_pos (passed free), List.dropWhile_cons_of_neg (by simp)]

theorem takeWhile_eq_left (free : sep ∉ s) (t : List α) :
    (s ++ sep :: t).takeWhile (· ≠ sep) = s := by
  rw [List.takeWhile_append_of_pos (passed free), List.takeWhile_cons_of_neg (by simp),
    List.append_nil]

theorem dropWhile_eq_nil (free : sep ∉ s) : s.dropWhile (· ≠ sep) = [] := by
  have all : (s ++ []).dropWhile (· ≠ sep) = [].dropWhile (· ≠ sep) :=
    List.dropWhile_append_of_pos (passed free)
  rwa [List.append_nil] at all

theorem cut?_append (free : sep ∉ s) (t : List α) : cut? sep (s ++ sep :: t) = some (s, t) := by
  rw [cut?, dropWhile_eq_cons free t]
  simp only [takeWhile_eq_left free t]

theorem cut?_eq_none (free : sep ∉ s) : cut? sep s = none := by
  rw [cut?, dropWhile_eq_nil free]

theorem splitAt_append (free : sep ∉ s) (t : List α) :
    splitAt sep (s ++ sep :: t) = s :: splitAt sep t := by
  rw [splitAt]
  split
  · next none =>
    rw [dropWhile_eq_cons free t] at none
    cases none
  · next found =>
    rw [dropWhile_eq_cons free t] at found
    cases found
    rw [takeWhile_eq_left free t]

theorem splitAt_eq_single (free : sep ∉ s) : splitAt sep s = [s] := by
  rw [splitAt]
  split
  · rfl
  · next found =>
    rw [dropWhile_eq_nil free] at found
    cases found

theorem position?_eq_none {word : List α} (absent : ¬ word <:+: s) (start : Nat) :
    position? word start s = none := by
  induction s generalizing start with
  | nil => rfl
  | cons c r ih =>
    rw [List.infix_cons_iff, not_or] at absent
    rw [position?, if_neg (mt List.isPrefixOf_iff_prefix.1 absent.1)]
    exact ih absent.2 (start + 1)

theorem before_eq_self {word : List α} (absent : ¬ word <:+: s) : before word s = s := by
  rw [before, position?_eq_none absent]

theorem dropFinal_eq_self {mark : α} (other : s.getLast? ≠ some mark) : dropFinal mark s = s :=
  if_neg other

/-! ## Lines -/

theorem splitAt_flatMap {β : Type} {newline : α} {f : β → List α} {bs : List β}
    (free : ∀ b ∈ bs, newline ∉ f b) {last : List α} (free' : newline ∉ last) :
    splitAt newline (bs.flatMap (f · ++ [newline]) ++ last) = bs.map f ++ [last] := by
  induction bs with
  | nil => exact splitAt_eq_single free'
  | cons b bs ih =>
    have rest := ih fun c later => free c (List.mem_cons_of_mem b later)
    have here := free b List.mem_cons_self
    rw [List.flatMap_cons, List.append_assoc, List.append_assoc, List.singleton_append,
      splitAt_append here, rest, List.map_cons, List.cons_append]

/-- Texts with a separator between them are cut apart from each other. -/
theorem splitAt_between (newline : α) (s t : List α) :
    splitAt newline (s ++ newline :: t) = splitAt newline s ++ splitAt newline t := by
  by_cases free : newline ∈ s
  · obtain ⟨u, v, rfl, absent⟩ := List.eq_append_cons_of_mem free
    rw [List.append_assoc, List.cons_append, splitAt_append absent, splitAt_append absent,
      splitAt_between newline v t, List.cons_append]
  · rw [splitAt_append free, splitAt_eq_single free, List.singleton_append]
termination_by s.length
decreasing_by
  subst_vars
  simp only [List.length_append, List.length_cons]
  omega

theorem splitAt_eq_concat (newline : α) (s : List α) :
    ∃ parts last, splitAt newline s = parts ++ [last] := by
  have present : splitAt newline s ≠ [] := by
    rw [splitAt]
    split <;> exact List.cons_ne_nil _ _
  exact ⟨_, _, (List.dropLast_concat_getLast present).symm⟩

/-- The lines of a text behind another, on a line of its own. -/
theorem lines_between (newline : α) (s t : List α) :
    lines newline (s ++ newline :: t) = splitAt newline s ++ lines newline t := by
  obtain ⟨parts, last, ends⟩ := splitAt_eq_concat newline t
  rw [lines, lines, splitAt_between, ends, ← List.append_assoc]
  by_cases empty : last = []
  · simp [empty]
  · simp [empty]

/-- The parts of a text are its lines, up to an empty one at the end. -/
theorem splitAt_eq_lines (newline : α) (s : List α) :
    splitAt newline s = lines newline s ∨ splitAt newline s = lines newline s ++ [[]] := by
  obtain ⟨parts, last, ends⟩ := splitAt_eq_concat newline s
  rw [lines, ends]
  by_cases empty : last = []
  · simp [empty]
  · simp [empty]

/-- Lines that end in a newline each, and a last one that may be empty. -/
theorem lines_flatMap {β : Type} {newline : α} {f : β → List α} {bs : List β}
    (free : ∀ b ∈ bs, newline ∉ f b) {last : List α} (free' : newline ∉ last) :
    lines newline (bs.flatMap (f · ++ [newline]) ++ last)
      = bs.map f ++ if last = [] then [] else [last] := by
  rw [lines, splitAt_flatMap free free']
  by_cases empty : last = []
  · simp [empty]
  · simp [empty]

end

/-! ## White space at the ends -/

/-- A text that neither starts nor ends with white space, and is not empty. -/
structure Inked (blank : α → Bool) (s : List α) : Prop where
  starts : ∃ c r, s = c :: r ∧ blank c = false
  ends : ∃ r c, s = r ++ [c] ∧ blank c = false

namespace Inked

variable {blank : α → Bool}

theorem of_forall (present : s ≠ []) (inked : ∀ c ∈ s, blank c = false) : Inked blank s := by
  refine ⟨?_, s.dropLast, s.getLast present, (s.dropLast_concat_getLast present).symm,
    inked _ (s.getLast_mem present)⟩
  cases s with
  | nil => exact absurd rfl present
  | cons c r => exact ⟨c, r, rfl, inked c List.mem_cons_self⟩

theorem ne_nil (inked : Inked blank s) : s ≠ [] := by
  obtain ⟨c, r, rfl, -⟩ := inked.starts
  exact List.cons_ne_nil c r

theorem append (inked : Inked blank s) (t : List α) {u : List α} (inked' : Inked blank u) :
    Inked blank (s ++ t ++ u) := by
  obtain ⟨c, r, rfl, first⟩ := inked.starts
  obtain ⟨r', c', rfl, last⟩ := inked'.ends
  exact ⟨⟨c, r ++ t ++ (r' ++ [c']), rfl, first⟩, c :: r ++ t ++ r', c',
    (List.append_assoc _ _ _).symm, last⟩

/-- White space around a text is dropped, and nothing else. -/
theorem strip_padded (inked : Inked blank s) {front back : List α} (before : ∀ c ∈ front, blank c = true)
    (after : ∀ c ∈ back, blank c = true) : strip blank (front ++ s ++ back) = s := by
  have left : (front ++ s ++ back).dropWhile blank = s ++ back := by
    obtain ⟨c, r, rfl, first⟩ := inked.starts
    rw [List.append_assoc, List.dropWhile_append_of_pos before, List.cons_append,
      List.dropWhile_cons_of_neg (by simp [first])]
  have right : (s ++ back).reverse.dropWhile blank = s.reverse := by
    obtain ⟨r, c, rfl, last⟩ := inked.ends
    rw [List.reverse_append, List.dropWhile_append_of_pos (by simpa using after),
      List.reverse_append, List.reverse_singleton, List.singleton_append,
      List.dropWhile_cons_of_neg (by simp [last])]
  rw [strip, left, right, List.reverse_reverse]

theorem strip_eq_self (inked : Inked blank s) : strip blank s = s := by
  have padded := inked.strip_padded (List.forall_mem_nil _) (List.forall_mem_nil _)
  rwa [List.nil_append, List.append_nil] at padded

/-- Only the white space at the start goes where a text stands behind another. -/
theorem strip_append (inked : Inked blank t) (s : List α) :
    strip blank (s ++ t) = s.dropWhile blank ++ t := by
  induction s with
  | nil => exact inked.strip_eq_self
  | cons c s ih =>
    by_cases first : blank c = true
    · rw [List.dropWhile_cons_of_pos first, ← ih, strip, strip, List.cons_append,
        List.dropWhile_cons_of_pos first]
    · have inked' : Inked blank (c :: s ++ t) := by
        obtain ⟨r, d, rfl, last⟩ := inked.ends
        exact ⟨⟨c, s ++ (r ++ [d]), rfl, by simpa using first⟩, c :: s ++ r, d, by simp, last⟩
      rw [List.dropWhile_cons_of_neg first, inked'.strip_eq_self]

end Inked

/-! ## Numbers -/

theorem readDigits_append (base bound acc : Nat) (s t : List Char) :
    readDigits base bound acc (s ++ t)
      = readDigits base bound acc s >>= fun acc => readDigits base bound acc t := by
  induction s generalizing acc with
  | nil => rfl
  | cons c s ih =>
    simp only [List.cons_append, readDigits]
    split
    · exact ih acc
    · split
      · rfl
      · split
        · rfl
        · split
          · rfl
          · exact ih _

theorem digitValue?_hexDigit : ∀ d < 16, digitValue? (hexDigit d) = some d ∧ hexDigit d ≠ '_' := by
  decide

theorem readDigits_hexDigit {bound acc d : Nat} (digit : d < 16) (fits : acc * 16 + d ≤ bound) :
    readDigits 16 bound acc [hexDigit d] = .ok (acc * 16 + d) := by
  obtain ⟨value, mark⟩ := digitValue?_hexDigit d digit
  simp only [readDigits, if_neg mark, value]
  rw [if_neg (by omega), if_neg (by omega)]

theorem readDigits_hexDigits {n bound : Nat} (fits : n ≤ bound) :
    readDigits 16 bound 0 (hexDigits n) = .ok n := by
  fun_induction hexDigits n with
  | case1 n small => simpa using @readDigits_hexDigit bound 0 n small (by omega)
  | case2 n large ih =>
    rw [readDigits_append, ih (by omega)]
    have last := @readDigits_hexDigit bound (n / 16) (n % 16) (Nat.mod_lt n (by decide)) (by omega)
    rwa [Nat.div_add_mod'] at last

theorem hexDigits_ne_nil (n : Nat) : hexDigits n ≠ [] := by
  unfold hexDigits
  split
  · exact List.cons_ne_nil _ _
  · exact List.append_ne_nil_of_right_ne_nil _ (List.cons_ne_nil _ _)

theorem mem_hexDigits {n : Nat} {c : Char} (member : c ∈ hexDigits n) : ∃ d < 16, c = hexDigit d := by
  fun_induction hexDigits n with
  | case1 n small => exact ⟨n, small, List.mem_singleton.1 member⟩
  | case2 n large ih =>
    rcases List.mem_append.1 member with front | last
    · exact ih front
    · exact ⟨n % 16, Nat.mod_lt n (by decide), List.mem_singleton.1 last⟩

theorem toList_hex {n : Int} (nonneg : 0 ≤ n) : (hex n).toList = '0' :: 'x' :: hexDigits n.natAbs := by
  rw [hex, if_neg (by omega), String.toList_append]
  exact congrArg ('0' :: 'x' :: ·) String.toList_ofList

theorem readInt64_hex {n : Int} (nonneg : 0 ≤ n) (small : n < 2 ^ 63) :
    readInt64 (hex n).toList = .ok n := by
  have read : readDigits 16 (2 ^ 64 - 1) 0 (hexDigits n.natAbs) = .ok n.natAbs :=
    readDigits_hexDigits (by omega)
  have marks : '_' ∉ '0' :: 'x' :: hexDigits n.natAbs := by
    simp only [List.mem_cons, not_or]
    refine ⟨by decide, by decide, fun member => ?_⟩
    obtain ⟨d, small, same⟩ := mem_hexDigits member
    exact (digitValue?_hexDigit d small).2 same.symm
  have split : splitBase ('0' :: 'x' :: hexDigits n.natAbs) = (16, hexDigits n.natAbs) := by
    cases digits : hexDigits n.natAbs with
    | nil => exact absurd digits (hexDigits_ne_nil _)
    | cons c r => rfl
  have whole : readNat (2 ^ 64 - 1) ('0' :: 'x' :: hexDigits n.natAbs) = .ok n.natAbs := by
    rw [readNat, if_neg (by simp), split]
    simp only [read, bind, Except.bind]
    rw [if_neg (by simp [marks])]
  have unsigned : readInt64 ('0' :: 'x' :: hexDigits n.natAbs)
      = (readNat (2 ^ 64 - 1) ('0' :: 'x' :: hexDigits n.natAbs)).bind fun n =>
        if 2 ^ 63 ≤ n then .error .range else .ok (n : Int) := rfl
  rw [toList_hex nonneg, unsigned, whole, Except.bind, if_neg (by omega),
    Int.natAbs_of_nonneg nonneg]

end LaneAsm.Text
