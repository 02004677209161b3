import LaneAsm.Proofs.Refinishing
import Mathlib.Data.List.Induction

/-!
Labels of another buffer. A label carries its name and its number, and a buffer looks at the number
alone. So a label that another buffer made is refused as long as fewer labels have been made here than
there (`Buffer.bind_foreign`, `Buffer.refuses_of_unbound`); after that it passes for the label of this
buffer that has the same number, and is bound and jumped to in its place (`labels_known_by_number`).
-/
namespace LaneAsm

namespace Edit

/-! ## The labels that calls make -/

/-- A call on a fresh buffer makes a label. -/
def Makes (edits : List Edit) (l : Label) : Prop :=
  ∃ before name rest, edits = before ++ .newLabel name :: rest ∧ l = ((after before).newLabel name).1

theorem after_snoc (edits : List Edit) (edit : Edit) :
    after (edits ++ [edit]) = edit.run (after edits) := List.foldl_append

theorem Makes.append {edits : List Edit} {l : Label} (made : Makes edits l) (more : List Edit) :
    Makes (edits ++ more) l := by
  obtain ⟨before, name, rest, rfl, made⟩ := made
  exact ⟨before, name, rest ++ more, by rw [List.append_assoc, List.cons_append], made⟩

/-- No call but the one that makes a label changes how many there are. -/
theorem size_labels_run (b : Buffer) (edit : Edit) :
    (∃ name, edit = .newLabel name) ∨ (edit.run b).labels.size = b.labels.size := by
  cases edit with
  | newLabel name => exact .inl ⟨name, rfl⟩
  | bind l =>
    rcases Buffer.bind_cases (b := b) rfl rfl l with ⟨fault, refused, -⟩ | ⟨bound, size, done, -⟩
    · exact .inr (by simp only [run, refused])
    · exact .inr (by simpa only [run, done] using size)
  | _ => exact .inr rfl

/-- Every number below the number of labels is the number of a label that was made. -/
theorem exists_makes {edits : List Edit} {n : Nat} (below : n < (after edits).labels.size) :
    ∃ own, Makes edits own ∧ own.id = n := by
  induction edits using List.reverseRecOn with
  | nil => exact absurd below (Nat.not_lt_zero n)
  | append_singleton edits edit ih =>
    rw [after_snoc] at below
    have old (inside : n < (after edits).labels.size) :
        ∃ own, Makes (edits ++ [edit]) own ∧ own.id = n := by
      obtain ⟨own, made, number⟩ := ih inside
      exact ⟨own, made.append [edit], number⟩
    rcases size_labels_run (after edits) edit with ⟨name, rfl⟩ | size
    · by_cases inside : n < (after edits).labels.size
      · exact old inside
      · have size : ((Edit.newLabel name).run (after edits)).labels.size
            = (after edits).labels.size + 1 := Array.size_push _
        exact ⟨_, ⟨edits, name, [], rfl, rfl⟩, show (after edits).labels.size = n by omega⟩
    · exact old (size ▸ below)

end Edit

namespace Buffer

/-! ## What a buffer does with a label -/

variable {b : Buffer} {l : Label}

theorem bind_foreign (unmade : b.labels.size ≤ l.id) :
    b.bind (some l) = Error.fail .foreignLabel := by
  simp only [bind, Array.getElem?_eq_none unmade]

theorem bind_unbound (free : b.labels[l.id]? = some none) :
    b.bind (some l) = .ok { b with labels := b.labels.setIfInBounds l.id (some b.size) } := by
  simp only [bind, free]

theorem bind_bound {o : Nat} (bound : b.labels[l.id]? = some (some o)) :
    b.bind (some l) = Error.fail (.boundTwice l.name) := by
  simp only [bind, bound]

/-- A finish fails at every reference to a label, unless it has failed before. -/
def Refuses (b : Buffer) (l : Label) : Prop :=
  ∀ front f rest, b.fixups.toList = front ++ f :: rest → f.label = some l →
    b.finish.1 = (patchAll b.labels front b.code).1.bind fun _ => Fault.fail (.neverBound l.name)

theorem target?_unbound {labels : Array (Option Nat)} {f : Fixup} (label : f.label = some l)
    (unbound : ∀ o, labels[l.id]? ≠ some (some o)) : target? labels f = none := by
  cases target : target? labels f with
  | none => rfl
  | some o =>
    simp only [target?, label, Option.bind_eq_bind, Option.bind_some] at target
    obtain ⟨place, found, rfl⟩ := Option.bind_eq_some_iff.1 target
    exact absurd found (unbound o)

theorem refuses_of_unbound (unbound : ∀ o, b.labels[l.id]? ≠ some (some o)) : b.Refuses l := by
  intro front f rest split label
  have stops (code : Bytes) :
      patch b.labels code f = Fault.fail (.neverBound l.name) := by
    rw [patch, target?_unbound label unbound, label]
    rfl
  rw [finish_eq, split]
  rcases resolved : patchAll b.labels front b.code with ⟨outcome, code⟩
  cases outcome with
  | ok _ =>
    rw [patchAll_append resolved, patchAll, stops]
    rfl
  | error e =>
    rw [patchAll_append_refused (f :: rest) resolved]
    rfl

/-! ## One label in place of another -/

/-- The reference, to another label if it is one to `l`. -/
def redirect (l own : Label) (f : Fixup) : Fixup :=
  if f.label = some l then { f with label := some own } else f

/-- A buffer whose references to `l` are references to another label. -/
def redirected (b : Buffer) (l own : Label) : Buffer :=
  { b with fixups := b.fixups.map (redirect l own) }

/-- Labels with one number are the same to a reference where the number is that of a bound label. -/
theorem patch_redirect {labels : Array (Option Nat)} {own : Label} (number : own.id = l.id) {o : Nat}
    (bound : labels[l.id]? = some (some o)) (code : Bytes) (f : Fixup) :
    patch labels code (redirect l own f) = patch labels code f := by
  unfold redirect
  split
  · next label =>
    have target : target? labels f = some o := by
      simp only [target?, label, Option.bind_eq_bind, Option.bind_some, bound]
    have target' : target? labels { f with label := some own } = some o := by
      simp only [target?, number, Option.bind_eq_bind, Option.bind_some, bound]
    simp only [patch, target, target']
  · rfl

theorem finish_redirected {own : Label} (number : own.id = l.id) {o : Nat}
    (bound : b.labels[l.id]? = some (some o)) : (b.redirected l own).finish.1 = b.finish.1 := by
  have same (fs : List Fixup) (code : Bytes) :
      patchAll b.labels (fs.map (redirect l own)) code = patchAll b.labels fs code := by
    induction fs generalizing code with
    | nil => rfl
    | cons f fs ih => simp only [List.map_cons, patchAll, patch_redirect number bound, ih]
  simp only [finish_eq, redirected, Array.toList_map, same]

end Buffer

/-- A buffer knows labels by their numbers. A label that another buffer has made is refused by a buffer
with fewer labels than that one had made by then: it cannot be bound, and no reference to it is
resolved. A buffer with more labels takes it for its own label of the same number. If its own label is
not bound, it gets the place that the other one was to have; if it is bound, it is the one that
references lead to. -/
theorem labels_known_by_number (first second : List Edit) (name : RawText) :
    let l := ((Edit.after first).newLabel name).1
    let b := Edit.after second
    (b.labels.size ≤ (Edit.after first).labels.size →
      b.bind (some l) = Error.fail .foreignLabel ∧ (Edit.bind (some l)).run b = b ∧ b.Refuses l) ∧
    ((Edit.after first).labels.size < b.labels.size →
      ∃ own, Edit.Makes second own ∧ own.id = l.id ∧
        (b.labels[own.id]? = some none →
          b.bind (some l) = .ok { b with labels := b.labels.setIfInBounds own.id (some b.size) } ∧
            b.Refuses l) ∧
        ∀ o, b.labels[own.id]? = some (some o) →
          b.bind (some l) = Error.fail (.boundTwice name) ∧ (Edit.bind (some l)).run b = b ∧
            b.finish.1 = (b.redirected l own).finish.1) := by
  intro l b
  constructor
  · intro fewer
    have refused := Buffer.bind_foreign (b := b) (l := l) fewer
    refine ⟨refused, by simp only [Edit.run, refused, Error.fail], Buffer.refuses_of_unbound ?_⟩
    intro o bound
    have inside := (Array.getElem?_eq_some_iff.1 bound).1
    exact absurd inside (Nat.not_lt.2 fewer)
  · intro more
    obtain ⟨own, made, number⟩ := Edit.exists_makes more
    have number : own.id = l.id := number
    refine ⟨own, made, number, fun free => ?_, fun o bound => ?_⟩
    · rw [number] at free ⊢
      refine ⟨Buffer.bind_unbound free, Buffer.refuses_of_unbound fun o bound => ?_⟩
      rw [free] at bound
      cases bound
    · rw [number] at bound
      have refused := Buffer.bind_bound bound
      exact ⟨refused, by simp only [Edit.run, refused, Error.fail],
        (Buffer.finish_redirected number bound).symm⟩

/-- The first label of one buffer, on a buffer that has bound its own first label and jumps to the
other one. -/
theorem labels_known_by_number_redirected :
    let elsewhere : Label := ((Edit.after []).newLabel (.ofString "elsewhere")).1
    let here : Label := ⟨.ofString "here", 0⟩
    let b := Edit.after [.newLabel here.name, .bind here, .emitWord 4 0, .fix ⟨.rel32, 0, 4, elsewhere⟩]
    0 < b.labels.size ∧ b.labels[here.id]? = some (some 0) ∧
      b.bind (some elsewhere) = Error.fail (.boundTwice elsewhere.name) ∧
      ∃ own : Label, own.id = here.id ∧ b.finish.1 = (b.redirected elsewhere own).finish.1 := by
  intro elsewhere here b
  have more : 0 < b.labels.size := by decide +kernel
  have bound : b.labels[here.id]? = some (some 0) := by decide +kernel
  obtain ⟨-, taken⟩ := labels_known_by_number []
    [.newLabel here.name, .bind here, .emitWord 4 0, .fix ⟨.rel32, 0, 4, elsewhere⟩] elsewhere.name
  obtain ⟨own, -, number, -, known⟩ := taken more
  have place : b.labels[own.id]? = some (some 0) := by rw [number]; exact bound
  obtain ⟨refused, -, same⟩ := known 0 place
  exact ⟨more, bound, refused, own, number, same⟩

/-- A label of one buffer is bound on another, and a jump to it is resolved there. -/
theorem foreign_label_accepted :
    let elsewhere : Label := (Buffer.empty.newLabel (.ofString "elsewhere")).1
    let b := (Buffer.empty.newLabel (.ofString "here")).2
    ∃ bound, b.bind (some elsewhere) = .ok bound ∧ bound.labels = #[some 0] ∧
      ((bound.emitWord 4 0).fix ⟨.rel32, 0, 4, elsewhere⟩).finish.1 = .ok #[0xFC, 0xFF, 0xFF, 0xFF] :=
  ⟨_, rfl, rfl, rfl⟩

end LaneAsm
