import LaneAsm.Proofs.Composition
import LaneAsm.Proofs.Relowering
import LaneAsm.Proofs.Sticky

/-!
How backends keep account of labels. An encoder numbers its labels, gives the bound ones an offset and
resolves references when it finishes; a recorded program looks bound labels up and checks the targets
of its jumps. Both follow one law (`Ledger.Lawful`): a label can be bound once, an instruction other
than a binding ends the same way whatever the program and its label, and finishing succeeds exactly
when every label that is referred to is bound, within reach where there are distances.
-/
namespace LaneAsm

/-! ## Distances of 64 bits -/

namespace Branching

variable {br : Branching} {labels : Array (Option Nat)} {code : Bytes}

/-- Every reference whose label is bound has it in reach, with distances taken in 64 bits. -/
def Near (br : Branching) (labels : Array (Option Nat)) (f : Fixup) : Prop :=
  ∀ t, Buffer.target? labels f = some t → br.Reaches (wrap64 (t - f.origin))

/-- How resolving a reference ends. -/
inductive Patched (br : Branching) (labels : Array (Option Nat)) (f : Fixup) :
    Except Fault Unit → Prop where
  | done {t : Nat} (target : Buffer.target? labels f = some t)
    (near : br.Reaches (wrap64 (t - f.origin))) : Patched br labels f (.ok ())
  | unbound (target : Buffer.target? labels f = none) :
    Patched br labels f (Fault.fail (.neverBound f.label.name))
  | far {t : Nat} {c : Cause} (target : Buffer.target? labels f = some t)
    (far : ¬ br.Reaches (wrap64 (t - f.origin))) (kind : c.kind? = some .branchRange) :
    Patched br labels f (Fault.fail c)

theorem patched_patch {f : Fixup} (placed : br.Placed labels code.size f) :
    br.Patched labels f ((Buffer.patch labels code f).map fun _ => ()) := by
  obtain ⟨kind, least, origin, inside, whole⟩ := placed
  unfold Buffer.patch
  cases target : Buffer.target? labels f with
  | none => exact .unbound target
  | some t =>
    obtain ⟨-, aligned⟩ := whole t target
    have window : (decide (0 ≤ f.site) && decide (f.site + 4 ≤ (code.size : Int))) = true := by
      simp only [Bool.and_eq_true, decide_eq_true_eq]
      omega
    simp only [window, kind, if_true]
    cases br with
    | x86 =>
      simp only [Branching.kind]
      by_cases fits : Branching.x86.Reaches (wrap64 (t - f.origin))
      · rw [if_neg (by simp only [Reaches, limit] at fits; omega)]
        exact .done target fits
      · rw [if_pos (by simp only [Reaches, limit] at fits; omega)]
        exact .far target fits rfl
    | mips =>
      have whole : wrap64 (t - f.origin) % 4 = 0 := by
        simp only [unit] at aligned
        simp only [wrap64, Int.bmod]
        omega
      simp only [Branching.kind]
      by_cases fits : Branching.mips.Reaches (wrap64 (t - f.origin))
      · rw [if_neg (by simp only [Reaches, limit] at fits; omega)]
        exact .done target fits
      · rw [if_pos (by simp only [Reaches, limit] at fits; omega)]
        exact .far target fits rfl

/-- Resolving references in order ends well, or as one of them does. -/
theorem patched_patchAll {fs : List Fixup} (placed : ∀ f ∈ fs, br.Placed labels code.size f) :
    ((Buffer.patchAll labels fs code).1 = .ok () ∧ ∀ f ∈ fs, br.Patched labels f (.ok ())) ∨
      ∃ f ∈ fs, ∃ fault, (Buffer.patchAll labels fs code).1 = .error fault ∧
        br.Patched labels f (.error fault) := by
  induction fs generalizing code with
  | nil => exact .inl ⟨rfl, List.forall_mem_nil _⟩
  | cons f fs ih =>
    obtain ⟨here, rest⟩ := List.forall_mem_cons.1 placed
    have ended := patched_patch here
    rw [Buffer.patchAll]
    cases patched : Buffer.patch labels code f with
    | error fault =>
      rw [patched] at ended
      exact .inr ⟨f, List.mem_cons_self, fault, rfl, ended⟩
    | ok code' =>
      rw [patched] at ended
      have size := Buffer.size_patch patched
      rcases ih (size.symm ▸ rest) with ⟨done, all⟩ | ⟨g, member, fault, failed, why⟩
      · exact .inl ⟨done, List.forall_mem_cons.2 ⟨ended, all⟩⟩
      · exact .inr ⟨g, List.mem_cons_of_mem f member, fault, failed, why⟩

end Branching

/-! ## Ledgers -/

/-- What a backend knows about the labels of its programs. -/
structure Ledger {σ : Type} (b : Backend σ) where
  /-- The program with nothing in it. -/
  fresh : σ
  /-- A program that calls on the backend have made. -/
  Sound : σ → Prop
  /-- The number of labels made. -/
  size : σ → Nat
  /-- A label is bound. -/
  Bound : σ → Label → Prop
  /-- Something in the program refers to a label. -/
  Refers : σ → LabelRef → Prop
  /-- The bound labels are in reach of the references to them. -/
  Near : σ → Prop

namespace Ledger

variable {σ : Type} {b : Backend σ}

/-- How an instruction ends, apart from its label. -/
def answer (g : Ledger b) (i : Instr RawText) : Except Fault Unit :=
  (b.perform (i.mapLabel fun _ => none) g.fresh).1

/-- A program that differs in its references alone. -/
structure Agrees (g : Ledger b) (s s' : σ) : Prop where
  sound : g.Sound s'
  size : g.size s' = g.size s
  bound : ∀ l, g.Bound s' l ↔ g.Bound s l

/-- The law of labels. -/
structure Lawful (g : Ledger b) : Prop where
  fresh : g.Sound g.fresh ∧ ∀ r, ¬ g.Refers g.fresh r
  /-- A label that is bound was made. -/
  made : ∀ l s, g.Sound s → g.Bound s l → l.id < g.size s
  newLabel : ∀ name s, g.Sound s → (b.newLabel name s).1 = ⟨name, g.size s⟩ ∧
    g.Sound (b.newLabel name s).2 ∧ g.size (b.newLabel name s).2 = g.size s + 1 ∧
    (∀ l, g.Bound (b.newLabel name s).2 l ↔ g.Bound s l) ∧
    ∀ r, g.Refers (b.newLabel name s).2 r ↔ g.Refers s r
  /-- A label is bound once, and no other label with it. -/
  bind : ∀ l s, g.Sound s → l.id < g.size s → ¬ g.Bound s l →
    ∃ s', b.issue (.bind (some l)) s = (.ok (), s') ∧ g.Sound s' ∧ g.size s' = g.size s ∧
      g.Bound s' l ∧ (∀ k : Label, k.id ≠ l.id → (g.Bound s' k ↔ g.Bound s k)) ∧
      ∀ r, g.Refers s' r ↔ g.Refers s r
  bindAgain : ∀ l s, g.Sound s → g.Bound s l →
    b.issue (.bind (some l)) s = (Fault.fail (.boundTwice l.name), s)
  /-- An instruction ends the same way whatever its label and the program. Where it succeeds, it refers
  to its label if it jumps. -/
  instr : ∀ i : Instr RawText, (∀ n, i ≠ .bind n) → ∀ ref s, g.Sound s →
    (b.perform (i.mapLabel fun _ => ref) s).1 = g.answer i ∧ (g.answer i = .ok () →
      g.Agrees s (b.perform (i.mapLabel fun _ => ref) s).2 ∧
      ∀ r, g.Refers (b.perform (i.mapLabel fun _ => ref) s).2 r ↔
        g.Refers s r ∨ (i.target? ≠ none ∧ r = ref))
  finish : ∀ s, g.Sound s → (∀ r, g.Refers s r → r ≠ none) →
    ((∃ c, (b.finish s).1 = .ok c) ∧ (∀ l, g.Refers s (some l) → g.Bound s l) ∧ g.Near s) ∨
    (∃ l : Label, g.Refers s (some l) ∧ ¬ g.Bound s l ∧
      (b.finish s).1 = Fault.fail (.neverBound l.name)) ∨
    ∃ c : Cause, ¬ g.Near s ∧ c.kind? = some .branchRange ∧ (b.finish s).1 = Fault.fail c

end Ledger

/-- Binding a label is one request. -/
theorem Backend.perform_bind {σ : Type} (b : Backend σ) (r : LabelRef) (s : σ) :
    b.perform (.bind r) s = b.issue (.bind r) s := by
  have lowered : b.lower (.bind r) = ⟨[.bind r], .ok ()⟩ := rfl
  simp only [perform, lowered, issueAll]
  rcases b.issue (.bind r) s with ⟨_ | _, s'⟩ <;> rfl

namespace Instr

variable {L M : Type}

theorem target?_mapLabel (f : L → M) (i : Instr L) : (i.mapLabel f).target? = i.target?.map f := by
  cases i <;> rfl

theorem mapLabel_ne_bind {i : Instr L} (other : ∀ n, i ≠ .bind n) (ref l : M) :
    i.mapLabel (fun _ => ref) ≠ .bind l := by
  cases i with
  | bind n => exact absurd rfl (other n)
  | _ => simp [mapLabel]

end Instr

/-! ## Encoders -/

/-- The labels of an encoder: the numbers of labels, the offsets they are bound to, and the references
with their distances. -/
def Branching.ledger (br : Branching) (b : Backend Buffer) : Ledger b where
  fresh := .empty
  Sound := br.Laid
  size s := s.labels.size
  Bound s l := Call.place s l.id ≠ none
  Refers s r := ∃ f ∈ s.fixups, f.label = r
  Near s := ∀ f ∈ s.fixups, br.Near s.labels f

section
variable {br : Branching} {b : Backend Buffer}

theorem Call.place_ne_none {s : Buffer} {id : Nat} :
    Call.place s id ≠ none ↔ ∃ o, s.labels[id]? = some (some o) := by
  unfold Call.place
  rcases s.labels[id]? with _ | _ | o <;> simp

theorem Buffer.target?_eq_none {s : Buffer} {f : Fixup} {l : Label} (label : f.label = some l) :
    Buffer.target? s.labels f = none ↔ Call.place s l.id = none := by
  simp only [Buffer.target?, label, Call.place, Option.bind_eq_bind, Option.bind_some]
  rcases s.labels[l.id]? with _ | _ | o <;> simp

/-- A label that was made and has no place can be bound. -/
theorem Buffer.bind_fresh {s : Buffer} {l : Label} (made : l.id < s.labels.size)
    (unbound : Call.place s l.id = none) : ∃ s', s.bind (some l) = .ok s' ∧
      s'.labels.size = s.labels.size ∧ s'.fixups = s.fixups := by
  have waiting : s.labels[l.id]? = some none := by
    rw [Array.getElem?_eq_getElem made]
    simp only [Call.place, Array.getElem?_eq_getElem made, Option.join_some] at unbound
    rw [unbound]
  exact ⟨_, Buffer.bind_eq_ok.2 ⟨waiting, rfl⟩, Array.size_setIfInBounds .., rfl⟩

theorem Backend.Lays.bind_again (lays : b.Lays br) {s : Buffer} {l : Label}
    (bound : Call.place s l.id ≠ none) :
    b.issue (.bind (some l)) s = (Fault.fail (.boundTwice l.name), s) := by
  obtain ⟨o, found⟩ := Call.place_ne_none.1 bound
  rw [lays.bind]
  simp only [Buffer.bind, found]
  rfl

/-- What an encoder appends for an instruction is laid out, and refers to the label of the instruction
if it jumps and to no other. -/
theorem Backend.Lays.performs (lays : b.Lays br) (drafts : b.Drafts br) {i : Instr RawText}
    (other : ∀ n, i ≠ .bind n) (ref : LabelRef) {s : Buffer} (laid : br.Laid s) :
    (b.perform (i.mapLabel fun _ => ref) s).1 = (br.ledger b).answer i ∧
      ((br.ledger b).answer i = .ok () →
        (br.ledger b).Agrees s (b.perform (i.mapLabel fun _ => ref) s).2 ∧
        ∀ r, (∃ f ∈ (b.perform (i.mapLabel fun _ => ref) s).2.fixups, f.label = r) ↔
          (∃ f ∈ s.fixups, f.label = r) ∨ (i.target? ≠ none ∧ r = ref)) := by
  obtain ⟨outcome, drafted, draftedFormed, items, plans, leads⟩ := drafts.instr other
  have ends (l : LabelRef) (s : Buffer) : b.perform (i.mapLabel fun _ => l) s
      = (outcome.bind fun _ => (b.lower (i.mapLabel fun _ => none)).outcome,
        (drafted.map (Draft.toward l)).foldl br.put s) := by
    simp only [Backend.perform, items l s, plans l]
  have answer : (br.ledger b).answer i
      = outcome.bind fun _ => (b.lower (i.mapLabel fun _ => none)).outcome :=
    congrArg Prod.fst (ends none _)
  -- The same bytes as pieces of which it is known that they are well formed.
  have follows := b.lower_follows (i.mapLabel fun _ => ref)
  obtain ⟨outcome', pieces, formed, issued⟩ := lays.putAll
    (fun p member l same => Instr.mapLabel_ne_bind other ref l ((follows p member).1 l same))
    fun p member => (follows p member).2
  have appended : (b.perform (i.mapLabel fun _ => ref) s).2 = pieces.foldl br.put s := by
    simp only [Backend.perform, issued]
  refine ⟨?_, fun done => ⟨⟨?_, ?_, fun l => ?_⟩, fun r => ⟨?_, ?_⟩⟩⟩
  · rw [ends, answer]
  · rw [appended]
    exact laid.putAll fun q member => (formed q member).1
  · rw [appended]
    exact congrArg Array.size (Branching.labels_putAll s pieces)
  · show Call.place _ _ ≠ none ↔ _
    rw [appended, Call.place_putAll]
    exact Iff.rfl
  · rintro ⟨f, member, rfl⟩
    rw [appended] at member
    rcases Call.reference_of_putAll (fun q among => (formed q among).1) member with old | new
    · exact .inl ⟨f, old, rfl⟩
    · obtain ⟨⟨q, among, target⟩, -⟩ := new
      rcases (formed q among).2 with none | aimed
      · rw [none] at target
        cases target
      · rw [aimed, Instr.target?_mapLabel] at target
        obtain ⟨n, jumps, same⟩ := Option.map_eq_some_iff.1 target
        exact .inr ⟨by rw [jumps]; exact Option.some_ne_none n, same.symm⟩
  · rintro (⟨f, old, label⟩ | ⟨jumps, rfl⟩)
    · rw [appended]
      exact ⟨f, Branching.mem_fixups_putAll old pieces, label⟩
    · rw [answer] at done
      obtain ⟨⟨⟩, ended, planned⟩ := bind_eq_ok.1 done
      obtain ⟨d, among, branch⟩ := leads jumps ended planned
      have target : (Draft.toward r d).target = some r := by rw [Draft.toward, if_pos branch]
      obtain ⟨f, new, label, -⟩ := Branching.exists_fixup_of_putAll (List.mem_map_of_mem among)
        (draftedFormed d among r) target s
      rw [ends]
      exact ⟨f, new, label⟩

/-- Encoders keep the law. -/
theorem Backend.Lays.lawful (lays : b.Lays br) (drafts : b.Drafts br) : (br.ledger b).Lawful where
  fresh := ⟨br.laid_empty, fun r refers => by
    obtain ⟨f, member, -⟩ := refers
    exact Array.not_mem_empty f member⟩
  made l s _ bound := by
    obtain ⟨o, found⟩ := Call.place_ne_none.1 bound
    exact (Array.getElem?_eq_some_iff.1 found).1
  newLabel name s laid := by
    rw [lays.newLabel]
    refine ⟨rfl, laid.newLabel name, Array.size_push .., fun l => ?_, fun r => Iff.rfl⟩
    show Call.place _ _ ≠ none ↔ _
    rw [Call.place_newLabel]
    exact Iff.rfl
  bind l s laid made unbound := by
    have waiting : Call.place s l.id = none := Decidable.not_not.1 unbound
    obtain ⟨s', bound, size, fixups⟩ := Buffer.bind_fresh made waiting
    have issued : b.issue (.bind (some l)) s = (.ok (), s') := by rw [lays.bind, bound]
    have place (id : Nat) : Call.place s' id = (Call.place s id).or
        (if some l.id = some id ∧ id < s.labels.size then some s.size else none) := by
      have placed := Call.place_bind lays s (some l) id
      rwa [issued] at placed
    refine ⟨s', issued, laid.bind bound, size, ?_, fun k apart => ?_, fun r => ?_⟩
    · show Call.place s' l.id ≠ none
      rw [place, waiting, if_pos ⟨rfl, made⟩]
      exact Option.some_ne_none _
    · show Call.place s' k.id ≠ none ↔ Call.place s k.id ≠ none
      rw [place, if_neg fun both => apart (Option.some.inj both.1).symm, Option.or_none]
    · show (∃ f ∈ s'.fixups, f.label = r) ↔ ∃ f ∈ s.fixups, f.label = r
      rw [fixups]
  bindAgain l s _ bound := lays.bind_again bound
  instr i other ref s laid := lays.performs drafts other ref laid
  finish s laid named := by
    have placed : ∀ f ∈ s.fixups.toList, br.Placed s.labels s.code.size f := fun f member =>
      laid.placed (Array.mem_toList_iff.1 member)
    have ends : (b.finish s).1 = (Buffer.patchAll s.labels s.fixups.toList s.code).1.map fun _ =>
        (Buffer.patchAll s.labels s.fixups.toList s.code).2 := by
      rw [lays.finish]
      rfl
    rcases Branching.patched_patchAll placed with ⟨done, all⟩ | ⟨f, member, fault, failed, why⟩
    · refine .inl ⟨⟨_, by rw [ends, done]; rfl⟩, fun l refers => ?_, fun f member t target => ?_⟩
      · obtain ⟨f, member, label⟩ := refers
        intro unplaced
        cases all f (Array.mem_toList_iff.2 member) with
        | done target _ =>
          rw [(Buffer.target?_eq_none label).2 unplaced] at target
          cases target
      · cases all f (Array.mem_toList_iff.2 member) with
        | done target' near =>
          obtain rfl := Option.some.inj (target.symm.trans target')
          exact near
    · have member := Array.mem_toList_iff.1 member
      rw [ends, failed]
      cases why with
      | unbound target =>
        obtain ⟨l, label⟩ := Option.ne_none_iff_exists'.1 (named f.label ⟨f, member, rfl⟩)
        refine .inr (.inl ⟨l, ⟨f, member, label⟩, fun bound => bound ?_, ?_⟩)
        · exact (Buffer.target?_eq_none label).1 target
        · rw [label]
          rfl
      | far target far kind => exact .inr (.inr ⟨_, fun near => far (near f member _ target), kind, rfl⟩)

end

/-! ## Recorded programs -/

/-- The labels of a recorded program: those it looks up, and the targets of its jumps. -/
def Program.ledger (cfg : Config) (limits : Limits) : Ledger (Program.backend cfg limits) where
  fresh := .empty
  Sound p := ∀ l : Label, p.labels.lookup (some l) ≠ none → l.id < p.nextLabel
  size p := p.nextLabel
  Bound p l := p.labels.lookup (some l) ≠ none
  Refers p r := r ∈ p.targets.toList
  Near _ := True

namespace Program

variable {cfg : Config} {limits : Limits}

/-- What recording checks of a primitive does not depend on its label. -/
theorem check_toward (limits : Limits) (x : Primitive) (l : LabelRef) :
    check limits (x.toward l) = check limits x := by
  cases x <;> rfl

/-- A primitive that binds nothing is recorded if it passes its check. -/
theorem issue_checked (limits : Limits) {x : Primitive} (other : ∀ l, x ≠ .bind l) (p : Program) :
    (check limits x = .ok () → issue limits x p = (.ok (), p.record x)) ∧
      ∀ e, check limits x = .error e → issue limits x p = (.error (.error e), p) := by
  cases x with
  | bind l => exact absurd rfl (other l)
  | _ =>
    constructor
    · intro passed
      simp only [issue, passed]
    · intro e failed
      simp only [issue, failed]

theorem nextLabel_foldl_record (ps : List Primitive) (p : Program) :
    (ps.foldl record p).nextLabel = p.nextLabel := by
  induction ps generalizing p with
  | nil => rfl
  | cons x ps ih => exact ih (p.record x)

/-- Primitives that bind nothing end the same way whatever their label and the program. -/
theorem issueAll_toward {ps : List Primitive} (other : ∀ x ∈ ps, ∀ l, x ≠ .bind l) :
    ∃ outcome : Except Fault Unit, ∀ l p,
      ((backend cfg limits).issueAll (ps.map (Primitive.toward l)) p).1 = outcome ∧
        (outcome = .ok () → (backend cfg limits).issueAll (ps.map (Primitive.toward l)) p
          = (.ok (), (ps.map (Primitive.toward l)).foldl record p)) := by
  induction ps with
  | nil => exact ⟨.ok (), fun _ _ => ⟨rfl, fun _ => rfl⟩⟩
  | cons x ps ih =>
    obtain ⟨here, others⟩ := List.forall_mem_cons.1 other
    obtain ⟨outcome, rest⟩ := ih others
    have first (l : LabelRef) (p : Program) :=
      issue_checked limits (Primitive.toward_ne_bind here l) p
    cases checked : check limits x with
    | error e =>
      refine ⟨.error (.error e), fun l p => ⟨?_, fun done => by cases done⟩⟩
      have failed : (backend cfg limits).issue (x.toward l) p = (.error (.error e), p) :=
        (first l p).2 e ((check_toward limits x l).trans checked)
      rw [List.map_cons, Backend.issueAll, failed]
    | ok u =>
      refine ⟨outcome, fun l p => ?_⟩
      have passed : (backend cfg limits).issue (x.toward l) p = (.ok (), p.record (x.toward l)) :=
        (first l p).1 ((check_toward limits x l).trans checked)
      rw [List.map_cons, Backend.issueAll, passed]
      exact rest l _

/-- The jumps that an instruction is lowered to all lead to its label. -/
theorem mem_targets_lower {cap : Capability} {L : Type} {i : Instr L} {ref r : LabelRef}
    (planned : (cap.lower (i.mapLabel fun _ => ref)).outcome = .ok ()) :
    r ∈ (cap.lower (i.mapLabel fun _ => ref)).items.filterMap target? ↔
      i.target? ≠ none ∧ r = ref := by
  have aimed (x : Primitive) (member : x ∈ (cap.lower (i.mapLabel fun _ => ref)).items)
      (jumps : target? x ≠ none) : i.target? ≠ none ∧ target? x = some ref := by
    rcases (cap.lower_follows _ x member).2 with none | same
    · exact absurd none jumps
    · have same : target? x = i.target?.map fun _ => ref := same.trans (Instr.target?_mapLabel _ i)
      cases target : i.target? with
      | none =>
        rw [target] at same
        exact absurd same jumps
      | some n =>
        rw [target] at same
        exact ⟨Option.some_ne_none n, same⟩
  rw [List.mem_filterMap]
  constructor
  · rintro ⟨x, member, target⟩
    obtain ⟨jumps, same⟩ := aimed x member (by rw [target]; exact Option.some_ne_none r)
    exact ⟨jumps, Option.some.inj (target.symm.trans same)⟩
  · rintro ⟨jumps, rfl⟩
    have mapped : (i.mapLabel fun _ => r).target? ≠ none := by
      rw [Instr.target?_mapLabel]
      exact fun none => jumps (Option.map_eq_none_iff.1 none)
    obtain ⟨x, member, target⟩ := cap.exists_target_of_lower mapped planned
    exact ⟨x, member, (aimed x member target).2⟩

/-- Checking the targets of jumps finds all bound, or one that is not. -/
theorem unbound_cases (p : Program) {ls : List LabelRef} (named : ∀ r ∈ ls, r ≠ none) :
    (p.unbound ls = .ok () ∧ ∀ l : Label, some l ∈ ls → p.labels.lookup (some l) ≠ none) ∨
      ∃ l : Label, some l ∈ ls ∧ p.labels.lookup (some l) = none ∧
        p.unbound ls = Fault.fail (.neverBound l.name) := by
  induction ls with
  | nil => exact .inl ⟨rfl, fun l member => absurd member List.not_mem_nil⟩
  | cons r ls ih =>
    obtain ⟨here, rest⟩ := List.forall_mem_cons.1 named
    obtain ⟨l, rfl⟩ := Option.ne_none_iff_exists'.1 here
    cases found : p.labels.lookup (some l) with
    | none =>
      refine .inr ⟨l, List.mem_cons_self, found, ?_⟩
      simp only [unbound, found]
    | some o =>
      have next : p.unbound (some l :: ls) = p.unbound ls := by
        simp only [unbound, found]
      rw [next]
      rcases ih rest with ⟨done, all⟩ | ⟨k, member, missing, failed⟩
      · refine .inl ⟨done, fun k member => ?_⟩
        rcases List.mem_cons.1 member with same | later
        · rw [same, found]
          exact Option.some_ne_none o
        · exact all k later
      · exact .inr ⟨k, List.mem_cons_of_mem _ member, missing, failed⟩

/-- Recorded programs keep the law. -/
theorem lawful (cfg : Config) (limits : Limits) : (ledger cfg limits).Lawful where
  fresh := ⟨fun l found => absurd rfl found, fun r refers => List.not_mem_nil refers⟩
  made l p sound bound := sound l bound
  newLabel name p sound :=
    ⟨rfl, fun l bound => Nat.lt_succ_of_lt (sound l bound), rfl, fun l => Iff.rfl, fun r => Iff.rfl⟩
  bind l p sound made unbound := by
    have waiting : p.labels.lookup (some l) = none := Decidable.not_not.1 unbound
    have lookup (k : Label) : List.lookup (some k) ((some l, p.steps.size) :: p.labels)
        = if k = l then some p.steps.size else p.labels.lookup (some k) := by
      rw [List.lookup_cons]
      by_cases same : k = l
      · simp [same]
      · rw [if_neg same, beq_eq_false_iff_ne.2 fun equal => same (Option.some.inj equal)]
    refine ⟨{ p with labels := (some l, p.steps.size) :: p.labels }, ?_, fun k bound => ?_, rfl, ?_,
      fun k apart => ?_, fun r => Iff.rfl⟩
    · simp only [backend, issue, Program.bind, waiting]
    · rw [lookup] at bound
      split at bound
      · next same => exact same ▸ made
      · exact sound k bound
    · show List.lookup (some l) _ ≠ none
      rw [lookup, if_pos rfl]
      exact Option.some_ne_none _
    · show List.lookup (some k) _ ≠ none ↔ _
      rw [lookup, if_neg fun same => apart (congrArg Label.id same)]
      exact Iff.rfl
  bindAgain l p sound bound := by
    obtain ⟨o, found⟩ := Option.ne_none_iff_exists'.1 bound
    simp only [backend, issue, Program.bind, found]
    rfl
  instr i other ref p sound := by
    have lowered := (backend cfg limits).lower_toward other
    have unbound : ∀ x ∈ ((backend cfg limits).lower (i.mapLabel fun _ => none)).items,
        ∀ l, x ≠ .bind l := fun x member l same => Instr.mapLabel_ne_bind other none l
      (((backend cfg limits).lower_follows _ x member).1 l same)
    obtain ⟨outcome, issued⟩ := @issueAll_toward cfg limits _ unbound
    have ends (l : LabelRef) (p : Program) :
        ((backend cfg limits).perform (i.mapLabel fun _ => l) p).1
          = outcome.bind fun _ => ((backend cfg limits).lower (i.mapLabel fun _ => none)).outcome := by
      simp only [Backend.perform]
      rw [lowered l, (issued l p).1]
    have answer := ends none (ledger cfg limits).fresh
    refine ⟨(ends ref p).trans answer.symm, fun done => ?_⟩
    obtain ⟨⟨⟩, ended, planned⟩ := bind_eq_ok.1 (answer.symm.trans done)
    have last : ((backend cfg limits).perform (i.mapLabel fun _ => ref) p).2
        = ((backend cfg limits).lower (i.mapLabel fun _ => ref)).items.foldl record p := by
      simp only [Backend.perform]
      rw [lowered ref, (issued ref p).2 ended]
    rw [last]
    refine ⟨⟨?_, nextLabel_foldl_record _ p, fun l => ?_⟩, fun r => ?_⟩
    · intro l bound
      rw [labels_foldl_record] at bound
      rw [nextLabel_foldl_record]
      exact sound l bound
    · show List.lookup _ _ ≠ none ↔ _
      rw [labels_foldl_record]
      exact Iff.rfl
    · show r ∈ Array.toList _ ↔ r ∈ p.targets.toList ∨ _
      have planned' : ((backend cfg limits).lower (i.mapLabel fun _ => ref)).outcome = .ok () := by
        rw [lowered ref]
        exact planned
      rw [targets_foldl_record, List.mem_append, mem_targets_lower planned']
  finish p sound named := by
    rcases unbound_cases p named with ⟨done, all⟩ | ⟨l, member, unbound, failed⟩
    · exact .inl ⟨⟨#[], congrArg (Except.map _) done⟩, all, trivial⟩
    · exact .inr (.inl ⟨l, member, fun bound => bound unbound, congrArg (Except.map _) failed⟩)

end Program

end LaneAsm
