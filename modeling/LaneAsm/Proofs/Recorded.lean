import LaneAsm.Proofs.Lowering
import LaneAsm.Proofs.Run
import LaneAsm.Proofs.Settled

/-!
Recorded programs. Instructions issued without an error leave a program that is laid out in blocks,
one block for each instruction, with each label at the block of the instruction that binds it
(`laidOut_of_issueAll`).
-/
namespace LaneAsm

namespace Assembler

variable {σ : Type}

/-- Issues instructions one after the other, up to the first trap. -/
def issueAll (b : Backend σ) : List (Instr LabelRef) → Assembler σ → Except Fault (Assembler σ)
  | [], a => .ok a
  | i :: is, a =>
    match a.issue b i with
    | (.ok (), a) => issueAll b is a
    | (.error f, _) => .error f

/-- An instruction issued without an error is lowered and all its primitives are issued. -/
theorem issue_clean {b : Backend σ} {a a' : Assembler σ} {i : Instr LabelRef}
    (issued : a.issue b i = (.ok (), a')) (clean : a'.error? = none) :
    a.error? = none ∧ (b.lower i).outcome = .ok () ∧
      b.issueAll (b.lower i).items a.state = (.ok (), a'.state) := by
  unfold issue at issued
  dsimp only at issued
  cases before : a.error? with
  | some e =>
    simp only [before] at issued
    cases issued
    cases clean
  | none =>
    simp only [before] at issued
    refine ⟨rfl, ?_⟩
    cases done : b.issueAll (b.lower i).items a.state with
    | mk outcome s =>
      simp only [done] at issued
      cases outcome with
      | error f =>
        cases f with
        | error e =>
          cases issued
          cases clean
        | trap => cases issued
      | ok _ =>
        cases lowered : (b.lower i).outcome with
        | error f =>
          simp only [lowered, Except.bind] at issued
          cases f with
          | error e =>
            cases issued
            cases clean
          | trap => cases issued
        | ok _ =>
          simp only [lowered, Except.bind] at issued
          cases issued
          exact ⟨rfl, rfl⟩

end Assembler

/-- The steps that an instruction is recorded as; binding a label takes none. -/
def Capability.block (cap : Capability) : Instr LabelRef → List Primitive
  | .bind _ => []
  | i => (cap.lower i).items

/-- The place among instructions where a label is bound. -/
def boundAt (is : List (Instr LabelRef)) (l : LabelRef) : Option Nat := is.idxOf? (.bind l)

theorem boundAt_cons (i : Instr LabelRef) (is : List (Instr LabelRef)) (l : LabelRef) :
    boundAt (i :: is) l = if i = .bind l then some 0 else (boundAt is l).map (· + 1) := by
  simp only [boundAt, List.idxOf?_cons, beq_iff_eq]

namespace Program

variable {limits : Limits}

/-- Primitives other than bindings are checked and recorded as they are. -/
theorem issueAll_record {cfg : Config} {ps : List Primitive} {p p' : Program}
    (unbound : ∀ l, .bind l ∉ ps)
    (issued : (backend cfg limits).issueAll ps p = (.ok (), p')) :
    p'.steps.toList = p.steps.toList ++ ps ∧ p'.labels = p.labels ∧
      ∀ x ∈ ps, check limits x = .ok () := by
  induction ps generalizing p with
  | nil =>
    cases issued
    simp
  | cons x ps ih =>
    rw [Backend.issueAll, backend] at issued
    dsimp only at issued
    cases passed : check limits x with
    | error e =>
      have refused : issue limits x p = (.error (.error e), p) := by
        cases x with
        | bind l => exact absurd (List.mem_cons_self ..) (unbound l)
        | _ => simp only [issue, passed]
      rw [refused] at issued
      cases issued
    | ok _ =>
      have recorded : issue limits x p = (.ok (), p.record x) := by
        cases x with
        | bind l => exact absurd (List.mem_cons_self ..) (unbound l)
        | _ => simp only [issue, passed]
      rw [recorded] at issued
      obtain ⟨steps, labels, checked⟩ :=
        ih (fun l member => unbound l (List.mem_cons_of_mem _ member)) issued
      refine ⟨?_, ?_, ?_⟩
      · simp [steps, record]
      · rw [labels, record]
      · intro y member
        rcases List.mem_cons.mp member with rfl | later
        · exact passed
        · exact checked y later

theorem issueAll_bind {cfg : Config} {l : LabelRef} {p p' : Program}
    (issued : (backend cfg limits).issueAll [.bind l] p = (.ok (), p')) :
    p.labels.lookup l = none ∧ p' = { p with labels := (l, p.steps.size) :: p.labels } := by
  simp only [Backend.issueAll, backend, issue, bind] at issued
  cases before : p.labels.lookup l with
  | none =>
    simp only [before] at issued
    cases issued
    exact ⟨rfl, rfl⟩
  | some n =>
    simp only [before] at issued
    cases l <;> cases issued

/-- One instruction: its block is recorded, and it binds the next step if it is a binding. -/
theorem issueAll_block {cfg : Config} {i : Instr LabelRef} {p p' : Program}
    (issued : (backend cfg limits).issueAll ((backend cfg limits).lower i).items p = (.ok (), p')) :
    p'.steps.toList = p.steps.toList ++ (backend cfg limits).toCapability.block i ∧
      (∀ l, p'.labels.lookup l =
        (p.labels.lookup l).or (if i = .bind l then some p.steps.size else none)) ∧
      ∀ x ∈ (backend cfg limits).toCapability.block i, check limits x = .ok () := by
  by_cases binding : ∃ l, i = .bind l
  · obtain ⟨l, rfl⟩ := binding
    obtain ⟨fresh, rfl⟩ := issueAll_bind issued
    refine ⟨by simp [Capability.block], ?_, by simp [Capability.block]⟩
    intro k
    by_cases same : k = l
    · subst same
      simp [fresh]
    · have other : l ≠ k := Ne.symm same
      have apart : (k == l) = false := beq_eq_false_iff_ne.mpr same
      simp [List.lookup_cons, apart, other]
  · have other (l : LabelRef) : i ≠ .bind l := fun same => binding ⟨l, same⟩
    have block : (backend cfg limits).toCapability.block i = ((backend cfg limits).lower i).items := by
      cases i with
      | bind l => exact absurd rfl (other l)
      | _ => rfl
    obtain ⟨steps, labels, checked⟩ :=
      issueAll_record (Capability.bind_not_mem_lower other) issued
    rw [block]
    refine ⟨steps, ?_, checked⟩
    intro l
    simp [labels, other l]

/-- Instructions issued one after the other: their blocks follow each other and each label is bound
where its block starts. -/
theorem issueAll_blocks {cfg : Config} {is : List (Instr LabelRef)} {a a' : Assembler Program}
    (issued : a.issueAll (backend cfg limits) is = .ok a') (clean : a'.error? = none) :
    a.error? = none ∧
      a'.state.steps.toList = a.state.steps.toList ++
        (is.map (backend cfg limits).toCapability.block).flatten ∧
      (∀ l, a'.state.labels.lookup l = (a.state.labels.lookup l).or ((boundAt is l).map fun k =>
        a.state.steps.size + offset (is.map (backend cfg limits).toCapability.block) k)) ∧
      ∀ i ∈ is, ((backend cfg limits).lower i).outcome = .ok () ∧
        ∀ x ∈ (backend cfg limits).toCapability.block i, check limits x = .ok () := by
  induction is generalizing a with
  | nil =>
    cases issued
    simp [clean, boundAt]
  | cons i is ih =>
    rw [Assembler.issueAll] at issued
    cases first : a.issue (backend cfg limits) i with
    | mk outcome a₁ =>
      cases outcome with
      | error f =>
        rw [first] at issued
        cases issued
      | ok _ =>
        rw [first] at issued
        obtain ⟨between, steps, labels, others⟩ := ih issued
        obtain ⟨before, lowered, done⟩ := Assembler.issue_clean first between
        obtain ⟨steps₁, labels₁, checked⟩ := issueAll_block done
        have size : a₁.state.steps.size =
            a.state.steps.size + ((backend cfg limits).toCapability.block i).length := by
          simpa using congrArg List.length steps₁
        refine ⟨before, ?_, ?_, ?_⟩
        · rw [steps, steps₁, List.map_cons, List.flatten_cons, List.append_assoc]
        · intro l
          rw [labels, labels₁, boundAt_cons, Option.or_assoc]
          congr 1
          by_cases here : i = .bind l
          · simp [here, offset]
          · simp [here, size, offset, Nat.add_assoc, Function.comp_def]
        · intro j member
          rcases List.mem_cons.mp member with rfl | later
          · exact ⟨lowered, checked⟩
          · exact others j later

/-- A program assembled without an error is laid out in the blocks of its instructions, all of which
were lowered and checked. -/
theorem laidOut_of_issueAll {cfg : Config} {is : List (Instr LabelRef)} {a : Assembler Program}
    (issued : (Assembler.start .empty).issueAll (backend cfg limits) is = .ok a)
    (clean : a.error? = none) :
    a.state.LaidOut (is.map (backend cfg limits).toCapability.block) (fun l => boundAt is (some l)) ∧
      ∀ i ∈ is, ((backend cfg limits).lower i).outcome = .ok () ∧
        ∀ x ∈ (backend cfg limits).toCapability.block i, check limits x = .ok () := by
  obtain ⟨_, steps, labels, lowered⟩ := issueAll_blocks issued clean
  refine ⟨⟨by simpa [Assembler.start, empty] using steps, ?_⟩, lowered⟩
  intro l
  simpa [Assembler.start, empty] using labels (some l)

end Program

end LaneAsm
