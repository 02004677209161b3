import LaneAsm.Json.Diff
import Mathlib.Data.List.Sort

/-!
Maps from names to texts, and their comparison. Maps with the same texts are equal
(`TextMap.ext_get?`), so a comparison can be asked to find a difference exactly between maps that are
not (`JsonDiff.Sound`); the one that writes the object on the left does (`JsonDiff.ascii_sound`).
-/
namespace LaneAsm

/-- The value of the last pair with a key. -/
def lastOf? (key : String) (pairs : List (String × String)) : Option String :=
  pairs.reverse.lookup key

theorem lookup_cons_eq (key : String) (entry : String × String) (entries : List (String × String)) :
    (entry :: entries).lookup key = if key = entry.1 then some entry.2 else entries.lookup key := by
  rw [List.lookup_cons]
  by_cases same : key = entry.1
  · rw [if_pos same, beq_iff_eq.2 same]
  · rw [if_neg same, beq_eq_false_iff_ne.2 same]

theorem lastOf?_cons (key : String) (entry : String × String) (entries : List (String × String)) :
    lastOf? key (entry :: entries) =
      (lastOf? key entries).or (if key = entry.1 then some entry.2 else none) := by
  rw [lastOf?, lastOf?, List.reverse_cons, List.lookup_append, lookup_cons_eq, List.lookup_nil]

/-! ## Texts by name -/

namespace TextMap

variable {m n : TextMap} {name text : String}

theorem get?_eq_some_iff : m.get? name = some text ↔ (name, text) ∈ m.pairs := by
  rw [get?, List.lookup_eq_some_iff]
  constructor
  · rintro ⟨front, rest, split, -⟩
    simp [split]
  · intro member
    obtain ⟨front, rest, split⟩ := List.append_of_mem member
    have sorted := m.sorted
    rw [split, List.pairwise_append] at sorted
    refine ⟨front, rest, split, fun p inside => bne_iff_ne.2 fun same => ?_⟩
    have before : p.1 < name := sorted.2.2 p inside _ List.mem_cons_self
    exact String.lt_irrefl _ (same ▸ before)

/-- Maps that have the same texts under all names are equal: there is one order for their pairs. -/
theorem ext_get? (same : ∀ name, m.get? name = n.get? name) : m = n := by
  have distinct (m : TextMap) : m.pairs.Nodup :=
    m.sorted.imp fun {p q} before (same : p = q) => String.lt_irrefl q.1 (same ▸ before)
  have members : ∀ p, p ∈ m.pairs ↔ p ∈ n.pairs := fun p => by
    rw [← get?_eq_some_iff, ← get?_eq_some_iff, same]
  have pairs : m.pairs = n.pairs :=
    ((List.perm_ext_iff_of_nodup (distinct m) (distinct n)).2 members).eq_of_pairwise
      (fun _ _ _ _ before after => absurd after (String.lt_asymm before)) m.sorted n.sorted
  cases m
  cases n
  cases pairs
  rfl

theorem lookup_insert (name text other : String) (pairs : List (String × String)) :
    (insert name text pairs).lookup other =
      if other = name then some text else pairs.lookup other := by
  induction pairs with
  | nil => rw [insert, lookup_cons_eq]
  | cons first rest ih =>
    unfold insert
    split
    · rw [lookup_cons_eq]
    · next before =>
      split
      · next after =>
        rw [lookup_cons_eq, lookup_cons_eq, ih]
        by_cases here : other = first.1
        · have apart : other ≠ name := fun same => String.lt_irrefl _ (here ▸ same ▸ after)
          rw [if_pos here, if_neg apart, if_pos here]
        · rw [if_neg here, if_neg here]
      · next after =>
        have same : name = first.1 :=
          String.le_antisymm (String.not_lt.1 after) (String.not_lt.1 before)
        rw [lookup_cons_eq, lookup_cons_eq, same]
        by_cases here : other = first.1
        · rw [if_pos here, if_pos here]
        · rw [if_neg here, if_neg here, if_neg here]

theorem get?_set (m : TextMap) (name text other : String) :
    (m.set name text).get? other = if other = name then some text else m.get? other :=
  lookup_insert name text other m.pairs

/-- Of several texts set under a name the last one stays. -/
theorem get?_setAll (m : TextMap) (pairs : List (String × String)) (name : String) :
    (m.setAll pairs).get? name = (lastOf? name pairs).or (m.get? name) := by
  induction pairs generalizing m with
  | nil => rfl
  | cons first rest ih =>
    have step : (m.setAll (first :: rest)).get? name = ((m.set first.1 first.2).setAll rest).get? name :=
      rfl
    rw [step, ih, get?_set, lastOf?_cons, Option.or_assoc]
    by_cases here : name = first.1
    · rw [if_pos here, if_pos here, Option.some_or]
    · rw [if_neg here, if_neg here, Option.none_or]

/-- Two maps have no changes exactly if they are equal. -/
theorem changes_eq_nil_iff {left right : TextMap} : left.changes right = [] ↔ left = right := by
  rw [changes, List.append_eq_nil_iff, List.filterMap_eq_nil_iff, List.filterMap_eq_nil_iff]
  constructor
  · rintro ⟨onLeft, onRight⟩
    refine ext_get? fun name => ?_
    cases old : left.get? name with
    | some text =>
      have kept := onLeft _ (get?_eq_some_iff.1 old)
      cases new : right.get? name with
      | none => simp [new] at kept
      | some text' =>
        simp only [new, ite_eq_left_iff, reduceCtorEq, imp_false, not_not] at kept
        rw [kept]
    | none =>
      cases new : right.get? name with
      | none => rfl
      | some text =>
        have kept := onRight _ (get?_eq_some_iff.1 new)
        simp [old] at kept
  · rintro rfl
    refine ⟨fun p member => ?_, fun p member => ?_⟩ <;>
      simp [get?_eq_some_iff.2 member]

end TextMap

/-! ## Comparison -/

/-- What is relied on of a comparison: two objects can be compared and are reported as modified exactly
if they differ, and the difference of objects that do is written as some text. -/
structure JsonDiff.Sound (lib : JsonDiff) : Prop where
  compares : ∀ left right, ∃ delta, lib.compare left right = .ok delta ∧
    (lib.modified delta = true ↔ left ≠ right)
  writes : ∀ coloring left right delta, lib.compare left right = .ok delta →
    lib.modified delta = true → ∃ text, lib.format coloring left delta = .ok text ∧ text ≠ ""

theorem JsonDiff.ascii_sound : JsonDiff.ascii.Sound where
  compares left right := by
    refine ⟨left.changes right, rfl, ?_⟩
    simp [ascii, TextMap.changes_eq_nil_iff]
  writes coloring left right delta _ _ := by
    refine ⟨_, rfl, fun empty => ?_⟩
    simp [String.append_eq_empty_iff] at empty

end LaneAsm
