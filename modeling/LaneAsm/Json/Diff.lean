import LaneAsm.Error

/-!
Comparison of JSON objects whose members are texts. What compares them and writes the difference comes
from elsewhere (`JsonDiff`); `JsonDiff.ascii` writes the left object with a line for each member that
was removed or added.
-/
namespace LaneAsm

/-- Texts by name, in increasing order of the names. -/
structure TextMap where
  pairs : List (String × String)
  sorted : pairs.Pairwise (·.1 < ·.1)

namespace TextMap

def empty : TextMap := ⟨[], .nil⟩

/-- Puts a text under a name into pairs that are sorted. -/
def insert (name text : String) : List (String × String) → List (String × String)
  | [] => [(name, text)]
  | first :: rest =>
    if name < first.1 then (name, text) :: first :: rest
    else if first.1 < name then first :: insert name text rest
    else (name, text) :: rest

theorem insert_forall {p : String → Prop} {name text : String} {pairs : List (String × String)}
    (here : p name) (others : ∀ q ∈ pairs, p q.1) : ∀ q ∈ insert name text pairs, p q.1 := by
  induction pairs with
  | nil => simpa [insert] using here
  | cons first rest ih =>
    obtain ⟨front, rest⟩ := List.forall_mem_cons.1 others
    unfold insert
    split
    · exact List.forall_mem_cons.2 ⟨here, others⟩
    · split
      · exact List.forall_mem_cons.2 ⟨front, ih rest⟩
      · exact List.forall_mem_cons.2 ⟨here, rest⟩

theorem insert_sorted {pairs : List (String × String)} (sorted : pairs.Pairwise (·.1 < ·.1))
    (name text : String) : (insert name text pairs).Pairwise (·.1 < ·.1) := by
  induction pairs with
  | nil => exact List.pairwise_singleton _ _
  | cons first rest ih =>
    obtain ⟨above, later⟩ := List.pairwise_cons.1 sorted
    unfold insert
    split
    · next before =>
      refine .cons (List.forall_mem_cons.2 ⟨before, fun q member => ?_⟩) sorted
      exact String.lt_trans before (above q member)
    · split
      · next after => exact .cons (insert_forall after above) (ih later)
      · next before after =>
        have same : name = first.1 :=
          String.le_antisymm (String.not_lt.1 after) (String.not_lt.1 before)
        exact .cons (fun q member => same ▸ above q member) later

/-- The map with a text under a name, in the place of one that was there before. -/
def set (m : TextMap) (name text : String) : TextMap :=
  ⟨insert name text m.pairs, insert_sorted m.sorted name text⟩

/-- The map after setting texts one after the other. -/
def setAll (m : TextMap) (pairs : List (String × String)) : TextMap :=
  pairs.foldl (fun m p => m.set p.1 p.2) m

/-- The text under a name. -/
def get? (m : TextMap) (name : String) : Option String := m.pairs.lookup name

end TextMap

/-- What compares two objects, tells whether they differ, and writes a difference, perhaps in colour,
over the object on the left. -/
structure JsonDiff where
  Delta : Type
  compare : TextMap → TextMap → Except Error Delta
  modified : Delta → Bool
  format : (coloring : Bool) → TextMap → Delta → Except Error String

/-- What becomes of a member of the object on the left. -/
inductive Change where
  | modified (old new : String)
  | deleted (old : String)
  | added (new : String)
deriving Repr, DecidableEq

/-- The changes between two objects: those of the members on the left, and those that are only on the
right. -/
def TextMap.changes (left right : TextMap) : List (String × Change) :=
  (left.pairs.filterMap fun (name, old) =>
    match right.get? name with
    | some new => if old = new then none else some (name, .modified old new)
    | none => some (name, .deleted old)) ++
  right.pairs.filterMap fun (name, new) =>
    if (left.get? name).isSome then none else some (name, .added new)

/-- Escape sequences that colour a line. -/
structure DiffColors where
  removed : String
  added : String
  reset : String

/-- Black on red for what was there, black on green for what is there now. -/
def DiffColors.of (coloring : Bool) : DiffColors :=
  if coloring then ⟨"\x1b[30;41m", "\x1b[30;42m", "\x1b[0m"⟩ else ⟨"", "", ""⟩

namespace DiffColors

/-- A member of an object with what stands after it. -/
def member (name text comma : String) : String :=
  "  \"" ++ name ++ "\": \"" ++ text ++ "\"" ++ comma

variable (c : DiffColors)

def removedLine (name text comma : String) : String :=
  c.removed ++ "-" ++ member name text comma ++ c.reset ++ "\n"

def addedLine (name text comma : String) : String :=
  c.added ++ "+" ++ member name text comma ++ c.reset ++ "\n"

/-- The lines of a member of the object on the left, each with its newline. -/
def memberLines (changes : List (String × Change)) (comma : String) (pair : String × String) :
    String :=
  let (name, text) := pair
  match changes.lookup name with
  | some (.modified old new) => c.removedLine name old comma ++ c.addedLine name new comma
  | some (.deleted old) => c.removedLine name old comma
  | _ => " " ++ member name text comma ++ "\n"

/-- The lines of the members on the left; a comma follows every one but the last. -/
def body (changes : List (String × Change)) : List (String × String) → String
  | [] => ""
  | [pair] => c.memberLines changes "" pair
  | pair :: rest => c.memberLines changes "," pair ++ body changes rest

/-- The lines of the members that are only on the right. -/
def additions (changes : List (String × Change)) : String :=
  String.join <| changes.map fun
    | (name, .added new) => c.addedLine name new ""
    | _ => ""

end DiffColors

/-- Writes every member of the object on the left on a line of its own. -/
def JsonDiff.ascii : JsonDiff where
  Delta := List (String × Change)
  compare left right := .ok (left.changes right)
  modified changes := !changes.isEmpty
  format coloring left changes :=
    let c := DiffColors.of coloring
    .ok (" \x7b\n" ++ c.body changes left.pairs ++ c.additions changes ++ " \x7d\n")

end LaneAsm
