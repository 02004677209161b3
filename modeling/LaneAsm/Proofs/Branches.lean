import LaneAsm.Catalog.BuiltIn
import LaneAsm.Proofs.Drafting
import LaneAsm.Proofs.Layout

/-!
Branches over whole programs. A program is made by calls of the assembler and of its backend in any
order. References are those of the jumps among the calls (`reference_of_runAll`,
`exists_reference_of_run`). After any calls the code is laid out as its fixups say (`laid_runAll`), so
that finishing it fails only for a label that is unbound or too far off, and a finished branch leads to
where its label was bound.
-/
namespace LaneAsm

/-! ## Calls -/

/-- A call of an assembler over buffers, or of the backend below it. -/
inductive Call where
  | newLabel (name : RawText)
  /-- A request to the backend. -/
  | request (p : Primitive)
  /-- An instruction for the assembler. -/
  | instr (i : Instr LabelRef)
  /-- Finishes the code on the backend. -/
  | finish
  /-- Finishes the code on the assembler. -/
  | code

namespace Call

/-- The assembler after a call, however the call ends. -/
def run (b : Backend Buffer) (a : Assembler Buffer) : Call → Assembler Buffer
  | .newLabel name => (a.newLabel b name).2
  | .request p => { a with state := (b.issue p a.state).2 }
  | .instr i => (a.issue b i).2
  | .finish => { a with state := (b.finish a.state).2 }
  | .code => (a.code b).2

/-- The assembler after calls in order. -/
def runAll (b : Backend Buffer) (a : Assembler Buffer) (calls : List Call) : Assembler Buffer :=
  calls.foldl (run b) a

/-- Whether a call finishes the code. -/
def finishes : Call → Bool
  | .finish | .code => true
  | _ => false

/-- The label that a call jumps to. -/
def target? : Call → Option LabelRef
  | .request p => p.target?
  | .instr i => i.target?
  | _ => none

/-- A request or an instruction that is carried out without an error. -/
def Accepted (b : Backend Buffer) (a : Assembler Buffer) : Call → Prop
  | .request p => (b.issue p a.state).1 = .ok ()
  | .instr i => (a.issue b i).1 = .ok () ∧ (a.issue b i).2.error? = none
  | _ => True

/-- Whether a call is one to bind a label that has been made. An assembler with an error does nothing. -/
def binds (a : Assembler Buffer) (id : Nat) : Call → Bool
  | .request (.bind (some l)) => l.id == id && id < a.state.labels.size
  | .instr (.bind (some l)) => l.id == id && id < a.state.labels.size && a.error?.isNone
  | _ => false

/-- Where the first call that binds a label finds the end of the code. -/
def boundAt? (b : Backend Buffer) (id : Nat) : Assembler Buffer → List Call → Option Nat
  | _, [] => none
  | a, c :: cs => if c.binds a id then some a.state.size else boundAt? b id (c.run b a) cs

end Call

/-! ## What a call does -/

variable {br : Branching} {b : Backend Buffer}

/-- An instruction is issued without an error if all its primitives are. -/
theorem Assembler.issue_eq_ok {σ : Type} {b : Backend σ} {a a' : Assembler σ} {i : Instr LabelRef} :
    a.issue b i = (.ok (), a') ∧ a'.error? = none ↔ a.error? = none ∧ (b.lower i).outcome = .ok () ∧
      ∃ s, b.issueAll (b.lower i).items a.state = (.ok (), s) ∧ a' = ⟨s, a.count + 1, none⟩ := by
  constructor
  · rintro ⟨issued, clear⟩
    simp only [Assembler.issue] at issued
    cases kept : a.error? with
    | some e =>
      simp only [kept] at issued
      obtain ⟨-, rfl⟩ := Prod.mk.inj issued
      cases clear
    | none =>
      simp only [kept] at issued
      split at issued
      · next ended =>
        obtain ⟨-, rfl⟩ := Prod.mk.inj issued
        obtain ⟨⟨⟩, all, planned⟩ := bind_eq_ok.1 ended
        exact ⟨rfl, planned, _, Prod.ext all rfl, rfl⟩
      · obtain ⟨-, rfl⟩ := Prod.mk.inj issued
        cases clear
      · cases issued
  · rintro ⟨kept, planned, s, issued, rfl⟩
    refine ⟨?_, rfl⟩
    simp only [Assembler.issue, kept, planned, issued]
    rfl

/-- The pieces of primitives that bind nothing. -/
theorem Backend.Lays.putAll (lays : b.Lays br) {target : Option LabelRef} {ps : List Primitive}
    (other : ∀ p ∈ ps, ∀ l, p ≠ .bind l) (targets : ∀ p ∈ ps, p.target? = none ∨ p.target? = target) :
    ∃ (outcome : Except Fault Unit) (pieces : List Piece),
      (∀ q ∈ pieces, br.Formed q ∧ (q.target = none ∨ q.target = target)) ∧
        ∀ s, b.issueAll ps s = (outcome, pieces.foldl br.put s) := by
  induction ps with
  | nil => exact ⟨.ok (), [], List.forall_mem_nil _, fun _ => rfl⟩
  | cons p ps ih =>
    obtain ⟨here, others⟩ := List.forall_mem_cons.1 other
    obtain ⟨jumps, rest⟩ := List.forall_mem_cons.1 targets
    obtain ⟨outcome, first, formed, issued⟩ := lays.put p here
    have aimed : ∀ q ∈ first, br.Formed q ∧ (q.target = none ∨ q.target = target) := by
      intro q member
      refine ⟨(formed q member).1, ?_⟩
      rcases (formed q member).2 with none | same
      · exact .inl none
      · rw [same]
        exact jumps
    cases outcome with
    | error e =>
      refine ⟨.error e, first, aimed, fun s => ?_⟩
      rw [Backend.issueAll, issued]
    | ok u =>
      obtain ⟨outcome, later, formed', issued'⟩ := ih others rest
      refine ⟨outcome, first ++ later, List.forall_mem_append.2 ⟨aimed, formed'⟩, fun s => ?_⟩
      rw [Backend.issueAll, issued, List.foldl_append]
      exact issued' _

theorem Buffer.fixups_bind {s s' : Buffer} {l : LabelRef} (bound : s.bind l = .ok s') :
    s'.fixups = s.fixups := by
  unfold Buffer.bind at bound
  split at bound
  · cases bound
  · split at bound
    · cases bound
    · cases bound
    · cases bound
      rfl

namespace Call

/-- What a call can do to a buffer. -/
inductive Step (br : Branching) (c : Call) (s : Buffer) : Buffer → Prop
  | stay : Step br c s s
  | label (name : RawText) : Step br c s (s.newLabel name).2
  | bind {l : LabelRef} {s' : Buffer} (bound : s.bind l = .ok s') : Step br c s s'
  | put {pieces : List Piece}
      (formed : ∀ q ∈ pieces, br.Formed q ∧ (q.target = none ∨ q.target = c.target?)) :
      Step br c s (pieces.foldl br.put s)
  | finish (ends : c.finishes = true) : Step br c s s.finish.2

theorem bind_step (lays : b.Lays br) (c : Call) (l : LabelRef) (s : Buffer) :
    Step br c s (b.issue (.bind l) s).2 := by
  rw [lays.bind]
  cases bound : s.bind l with
  | ok s' => exact .bind bound
  | error e => exact .stay

/-- An assembler with an error leaves the buffer alone, and one without issues the primitives. -/
theorem state_issue (b : Backend Buffer) (a : Assembler Buffer) (i : Instr LabelRef) :
    (a.issue b i).2.state = if a.error? = none then (b.issueAll (b.lower i).items a.state).2
      else a.state := by
  unfold Assembler.issue
  cases a.error? with
  | some e => rfl
  | none =>
    dsimp only
    rw [if_pos rfl]
    split <;> rfl

theorem step_run (lays : b.Lays br) (a : Assembler Buffer) (c : Call) :
    Step br c a.state (c.run b a).state := by
  cases c with
  | newLabel name =>
    show Step br _ _ (b.newLabel name a.state).2
    rw [lays.newLabel]
    exact .label name
  | request p =>
    by_cases binding : ∃ l, p = .bind l
    · obtain ⟨l, rfl⟩ := binding
      exact bind_step lays _ l _
    · obtain ⟨outcome, pieces, formed, issued⟩ := lays.put p fun l same => binding ⟨l, same⟩
      show Step br _ _ (b.issue p a.state).2
      rw [issued]
      exact .put formed
  | instr i =>
    show Step br _ _ (a.issue b i).2.state
    rw [state_issue]
    split
    · by_cases binding : ∃ l, i = .bind l
      · obtain ⟨l, rfl⟩ := binding
        have step := bind_step lays (.instr (.bind l)) l a.state
        show Step br _ _ (b.issueAll [.bind l] a.state).2
        rw [Backend.issueAll]
        split
        · next issued => rwa [issued] at step
        · next issued => rwa [issued] at step
      · have follows := b.lower_follows i
        obtain ⟨outcome, pieces, formed, issued⟩ := lays.putAll
          (fun p member l same => binding ⟨l, (follows p member).1 l same⟩)
          fun p member => (follows p member).2
        rw [issued]
        exact .put formed
    · exact .stay
  | finish =>
    show Step br _ _ (b.finish a.state).2
    rw [lays.finish]
    exact .finish rfl
  | code =>
    show Step br _ _ (a.code b).2.state
    unfold Assembler.code
    split
    · exact .stay
    · show Step br _ _ (b.finish a.state).2
      rw [lays.finish]
      exact .finish rfl

theorem Step.laid {c : Call} {s s' : Buffer} (step : Step br c s s') (laid : br.Laid s) :
    br.Laid s' := by
  cases step with
  | stay => exact laid
  | label name => exact laid.newLabel name
  | bind bound => exact laid.bind bound
  | put formed => exact laid.putAll fun q member => (formed q member).1
  | finish _ => exact ((Branching.Same.refl br s).finish laid).laid laid

theorem laid_runAll (lays : b.Lays br) {a : Assembler Buffer} (laid : br.Laid a.state)
    (calls : List Call) : br.Laid (runAll b a calls).state := by
  induction calls generalizing a with
  | nil => exact laid
  | cons c cs ih => exact ih ((step_run lays a c).laid laid)

/-! ## Without finishing -/

/-- Assemblers whose buffers differ in the bytes of fields alone. -/
structure Tracks (br : Branching) (e a : Assembler Buffer) : Prop where
  state : br.Same e.state a.state
  count : a.count = e.count
  error : a.error? = e.error?

theorem same_issue (lays : b.Lays br) {e s : Buffer} (same : br.Same e s) (p : Primitive) :
    (b.issue p s).1 = (b.issue p e).1 ∧ br.Same (b.issue p e).2 (b.issue p s).2 := by
  by_cases binding : ∃ l, p = .bind l
  · obtain ⟨l, rfl⟩ := binding
    rw [lays.bind, lays.bind]
    rcases same.bind l with ⟨fault, left, right⟩ | ⟨e', s', left, right, same'⟩
    · rw [left, right]
      exact ⟨rfl, same⟩
    · rw [left, right]
      exact ⟨rfl, same'⟩
  · obtain ⟨outcome, pieces, -, issued⟩ := lays.put p fun l same => binding ⟨l, same⟩
    rw [issued, issued]
    exact ⟨rfl, same.putAll pieces⟩

theorem same_issueAll (lays : b.Lays br) {e s : Buffer} (same : br.Same e s) (ps : List Primitive) :
    (b.issueAll ps s).1 = (b.issueAll ps e).1 ∧
      br.Same (b.issueAll ps e).2 (b.issueAll ps s).2 := by
  induction ps generalizing e s with
  | nil => exact ⟨rfl, same⟩
  | cons p ps ih =>
    obtain ⟨outcome, same'⟩ := same_issue lays same p
    rw [Backend.issueAll, Backend.issueAll]
    rcases left : b.issue p e with ⟨ended, e'⟩
    rcases right : b.issue p s with ⟨ended', s'⟩
    rw [left, right] at outcome same'
    obtain rfl : ended' = ended := outcome
    cases ended' with
    | ok _ => exact ih same'
    | error f => exact ⟨rfl, same'⟩

theorem tracks_issue (lays : b.Lays br) {e a : Assembler Buffer} (tracks : Tracks br e a)
    (i : Instr LabelRef) : Tracks br (e.issue b i).2 (a.issue b i).2 := by
  obtain ⟨state, count, error⟩ := tracks
  obtain ⟨outcome, same⟩ := same_issueAll lays state (b.lower i).items
  unfold Assembler.issue
  dsimp only
  rw [error, count]
  cases e.error? with
  | some kept => exact ⟨state, rfl, rfl⟩
  | none =>
    dsimp only
    rw [outcome]
    split <;> exact ⟨same, rfl, rfl⟩

/-- The calls that do not finish the code make the same program, fields aside. -/
theorem tracks_runAll (lays : b.Lays br) {e a : Assembler Buffer} (tracks : Tracks br e a)
    (laid : br.Laid e.state) (calls : List Call) :
    Tracks br (runAll b e (calls.filter (!·.finishes))) (runAll b a calls) := by
  induction calls generalizing e a with
  | nil => exact tracks
  | cons c cs ih =>
    by_cases ends : c.finishes = true
    · rw [List.filter_cons_of_neg (by simp [ends])]
      refine ih ?_ laid
      have finished : Tracks br e { a with state := (b.finish a.state).2 } := by
        rw [lays.finish]
        exact ⟨tracks.state.finish laid, tracks.count, tracks.error⟩
      cases c with
      | finish => exact finished
      | code =>
        show Tracks br e (a.code b).2
        unfold Assembler.code
        split
        · exact tracks
        · exact finished
      | _ => cases ends
    · rw [List.filter_cons_of_pos (by simp [ends])]
      refine ih ?_ ((step_run lays e c).laid laid)
      cases c with
      | newLabel name =>
        refine ⟨?_, tracks.count, tracks.error⟩
        show br.Same (b.newLabel name e.state).2 (b.newLabel name a.state).2
        rw [lays.newLabel, lays.newLabel]
        exact tracks.state.newLabel name
      | request p => exact ⟨(same_issue lays tracks.state p).2, tracks.count, tracks.error⟩
      | instr i => exact tracks_issue lays tracks i
      | finish => exact absurd rfl ends
      | code => exact absurd rfl ends

/-! ## Where labels are bound -/

/-- The offset a label is bound to. -/
def place (s : Buffer) (id : Nat) : Option Nat := s.labels[id]?.join

theorem place_newLabel (s : Buffer) (name : RawText) (id : Nat) :
    place (s.newLabel name).2 id = place s id := by
  unfold place Buffer.newLabel
  dsimp only
  rw [Array.getElem?_push]
  split
  · next new =>
    subst new
    rw [Array.getElem?_eq_none (Nat.le_refl _)]
    rfl
  · rfl

theorem place_putAll (s : Buffer) (pieces : List Piece) (id : Nat) :
    place (pieces.foldl br.put s) id = place s id := by
  induction pieces generalizing s with
  | nil => rfl
  | cons p ps ih => rw [List.foldl_cons, ih, place, Branching.labels_put, place]

/-- Binding gives a label its place unless it has one. -/
theorem place_bind (lays : b.Lays br) (s : Buffer) (l : LabelRef) (id : Nat) :
    place (b.issue (.bind l) s).2 id = (place s id).or
      (if l.map Label.id = some id ∧ id < s.labels.size then some s.size else none) := by
  rw [lays.bind]
  unfold Buffer.bind
  cases l with
  | none => simp [Error.fail]
  | some l =>
    by_cases here : l.id = id
    · subst here
      dsimp only
      by_cases made : l.id < s.labels.size
      · have found : s.labels[l.id]? = some s.labels[l.id] := Array.getElem?_eq_getElem made
        cases old : s.labels[l.id] with
        | some o => simp [place, found, old, Error.fail]
        | none => simp [place, old, made]
      · simp [place, made, Error.fail]
    · have other : ¬ (some l.id = some id ∧ id < s.labels.size) := fun both => here (Option.some.inj both.1)
      dsimp only
      rw [Option.map_some, if_neg other, Option.or_none]
      cases s.labels[l.id]? with
      | none => rfl
      | some old =>
        cases old with
        | some o => rfl
        | none =>
          show (s.labels.setIfInBounds l.id (some s.size))[id]?.join = s.labels[id]?.join
          rw [Array.getElem?_setIfInBounds_ne here]

theorem place_run (lays : b.Lays br) (a : Assembler Buffer) (c : Call) (id : Nat) :
    place (c.run b a).state id
      = (place a.state id).or (if c.binds a id then some a.state.size else none) := by
  have unbound {s : Buffer} (same : place s id = place a.state id) (other : c.binds a id = false) :
      place s id = (place a.state id).or (if c.binds a id then some a.state.size else none) := by
    rw [same, other]
    exact Option.or_none.symm
  have finished : place (b.finish a.state).2 id = place a.state id := by
    rw [lays.finish]
    rfl
  cases c with
  | newLabel name =>
    refine unbound ?_ rfl
    show place (b.newLabel name a.state).2 id = _
    rw [lays.newLabel]
    exact place_newLabel a.state name id
  | request p =>
    by_cases binding : ∃ l, p = .bind l
    · obtain ⟨l, rfl⟩ := binding
      refine (place_bind lays a.state l id).trans ?_
      cases l <;> simp [binds]
    · refine unbound ?_ ?_
      · obtain ⟨outcome, pieces, -, issued⟩ := lays.put p fun l same => binding ⟨l, same⟩
        show place (b.issue p a.state).2 id = _
        rw [issued]
        exact place_putAll a.state pieces id
      · cases p <;> first | rfl | exact absurd ⟨_, rfl⟩ binding
  | instr i =>
    show place (a.issue b i).2.state id = _
    rw [state_issue]
    by_cases binding : ∃ l, i = .bind l
    · obtain ⟨l, rfl⟩ := binding
      have bound := place_bind lays a.state l id
      have only : b.issueAll (b.lower (.bind l)).items a.state = b.issue (.bind l) a.state := by
        show b.issueAll [.bind l] a.state = _
        rw [Backend.issueAll]
        split
        · next issued => rw [issued, Backend.issueAll]
        · next issued => rw [issued]
      rw [only]
      cases error : a.error? <;> cases l <;> simp [binds, bound, error]
    · refine unbound ?_ ?_
      · split
        · have follows := b.lower_follows i
          obtain ⟨outcome, pieces, -, issued⟩ := lays.putAll
            (fun p member l same => binding ⟨l, (follows p member).1 l same⟩)
            fun p member => (follows p member).2
          rw [issued]
          exact place_putAll a.state pieces id
        · rfl
      · cases i <;> first | rfl | exact absurd ⟨_, rfl⟩ binding
  | finish => exact unbound finished rfl
  | code =>
    refine unbound ?_ rfl
    show place (a.code b).2.state id = _
    unfold Assembler.code
    split
    · rfl
    · exact finished

/-- Labels are bound where the first call that binds them finds the end of the code. -/
theorem place_runAll (lays : b.Lays br) (a : Assembler Buffer) (calls : List Call) (id : Nat) :
    place (runAll b a calls).state id = (place a.state id).or (boundAt? b id a calls) := by
  induction calls generalizing a with
  | nil => exact Option.or_none.symm
  | cons c cs ih =>
    refine (ih (c.run b a)).trans ?_
    rw [place_run lays, boundAt?]
    cases place a.state id <;> cases c.binds a id <;> rfl

/-! ## Where references come from -/

theorem reference_of_putAll {s : Buffer} {pieces : List Piece} {f : Fixup}
    (formed : ∀ q ∈ pieces, br.Formed q) (member : f ∈ (pieces.foldl br.put s).fixups) :
    f ∈ s.fixups ∨ (∃ q ∈ pieces, q.target = some f.label) ∧ s.size ≤ f.site ∧
      f.origin ≤ (pieces.foldl br.put s).size := by
  induction pieces generalizing s with
  | nil => exact .inl member
  | cons q qs ih =>
    obtain ⟨here, rest⟩ := List.forall_mem_cons.1 formed
    have size := @Branching.size_put br s q
    have later := Branching.size_le_putAll br (br.put s q) qs
    rw [List.foldl_cons] at member ⊢
    rcases ih rest member with old | ⟨⟨q', among, target⟩, above, below⟩
    · rcases Branching.mem_fixups_put.1 old with old | made
      · exact .inl old
      · obtain ⟨length, room, kind, origin, site⟩ := Branching.of_reference? here made
        obtain ⟨l, target, rfl⟩ := Option.map_eq_some_iff.1 made
        refine .inr ⟨⟨q, List.mem_cons_self, target⟩, by omega, by omega⟩
    · exact .inr ⟨⟨q', List.mem_cons_of_mem q among, target⟩, by omega, below⟩

theorem Step.mem_fixups {c : Call} {s s' : Buffer} (step : Step br c s s') {f : Fixup}
    (member : f ∈ s.fixups) : f ∈ s'.fixups := by
  cases step with
  | stay => exact member
  | label name => exact member
  | bind bound =>
    rw [Buffer.fixups_bind bound]
    exact member
  | put _ => exact Branching.mem_fixups_putAll member _
  | finish _ => exact member

/-- A reference lies in the bytes of a call that jumps to its label. -/
theorem reference_of_runAll (lays : b.Lays br) (a : Assembler Buffer) (calls : List Call) {f : Fixup}
    (member : f ∈ (runAll b a calls).state.fixups) :
    f ∈ a.state.fixups ∨ ∃ before c after, calls = before ++ c :: after ∧
      c.target? = some f.label ∧ (runAll b a before).state.size ≤ f.site ∧
      f.origin ≤ (runAll b a (before ++ [c])).state.size := by
  induction calls generalizing a with
  | nil => exact .inl member
  | cons c cs ih =>
    rcases ih (c.run b a) member with new | ⟨before, c', after, rfl, target, above, below⟩
    · have first (fresh : c.target? = some f.label ∧ a.state.size ≤ f.site ∧
          f.origin ≤ (c.run b a).state.size) : ∃ before c' after, c :: cs = before ++ c' :: after ∧
          c'.target? = some f.label ∧ (runAll b a before).state.size ≤ f.site ∧
          f.origin ≤ (runAll b a (before ++ [c'])).state.size := ⟨[], c, cs, rfl, fresh⟩
      have step := step_run lays a c
      revert new first
      generalize (c.run b a).state = s at step
      intro new first
      cases step with
      | stay => exact .inl new
      | label name => exact .inl new
      | bind bound =>
        rw [Buffer.fixups_bind bound] at new
        exact .inl new
      | put formed =>
        rcases reference_of_putAll (fun q among => (formed q among).1) new with old | ⟨made, inside⟩
        · exact .inl old
        · obtain ⟨q, among, target⟩ := made
          refine .inr (first ⟨?_, inside⟩)
          rcases (formed q among).2 with none | same
          · rw [none] at target
            cases target
          · exact same.symm.trans target
      | finish _ => exact .inl new
    · exact .inr ⟨c :: before, c', after, rfl, target, above, below⟩

/-- A jump that is accepted leaves a reference to its label in its bytes. -/
theorem exists_reference_of_run (drafts : b.Drafts br) (a : Assembler Buffer) {c : Call} {l : LabelRef}
    (target : c.target? = some l) (accepted : c.Accepted b a) :
    ∃ f ∈ (c.run b a).state.fixups, f.label = l ∧ a.state.size ≤ f.site ∧
      f.origin ≤ (c.run b a).state.size := by
  have left {drafted : List Draft} (formed : ∀ d ∈ drafted, ∀ l, br.Formed (d.toward l))
      (appended : (c.run b a).state = (drafted.map (Draft.toward l)).foldl br.put a.state)
      (leads : ∃ d ∈ drafted, d.jumps) : ∃ f ∈ (c.run b a).state.fixups, f.label = l ∧
        a.state.size ≤ f.site ∧ f.origin ≤ (c.run b a).state.size := by
    obtain ⟨d, among, branch⟩ := leads
    rw [appended]
    refine Branching.exists_fixup_of_putAll (List.mem_map_of_mem among) (formed d among l) ?_ a.state
    rw [Draft.toward, if_pos branch]
  cases c with
  | request p =>
    have jumps : p.target? = some l := target
    have other : ∀ m, p ≠ .bind m := by
      rintro m rfl
      cases jumps
    obtain ⟨outcome, drafted, formed, issued, leads⟩ := drafts p other
    have here := issued l a.state
    rw [Primitive.toward_of_target?_eq_some jumps] at here
    have ended : outcome = .ok () := (congrArg Prod.fst here).symm.trans accepted
    exact left formed (congrArg Prod.snd here) (leads (by rw [jumps]; exact Option.some_ne_none l) ended)
  | instr i =>
    have jumps : i.target? = some l := target
    have other : ∀ m, i ≠ .bind m := by
      rintro m rfl
      cases jumps
    have whole : i.mapLabel (fun _ => l) = i := Instr.mapLabel_of_target? jumps
    obtain ⟨-, planned, s, all, after⟩ := Assembler.issue_eq_ok.1 ⟨Prod.ext accepted.1 rfl, accepted.2⟩
    obtain ⟨outcome, drafted, formed, items, plans, leads⟩ := drafts.instr other
    have here := items l a.state
    have plan := plans l
    rw [whole] at here plan
    obtain ⟨rfl, rfl⟩ := Prod.mk.inj (all.symm.trans here)
    exact left formed (congrArg Assembler.state after)
      (leads (by rw [jumps]; exact Option.some_ne_none l) rfl (plan.symm.trans planned))
  | _ => cases target

theorem runAll_append (b : Backend Buffer) (a : Assembler Buffer) (before rest : List Call) :
    runAll b a (before ++ rest) = runAll b (runAll b a before) rest :=
  List.foldl_append

theorem mem_fixups_runAll (lays : b.Lays br) {a : Assembler Buffer} {f : Fixup}
    (member : f ∈ a.state.fixups) (calls : List Call) : f ∈ (runAll b a calls).state.fixups := by
  induction calls generalizing a with
  | nil => exact member
  | cons c cs ih => exact ih ((step_run lays a c).mem_fixups member)

end Call

/-! ## Finished programs -/

namespace Branching

/-- The encoder that writes branches so. -/
def backend (br : Branching) (cfg : Config) : Backend Buffer :=
  match br with
  | .x86 => X86.backend cfg
  | .mips => Msa.backend cfg

theorem lays (br : Branching) (cfg : Config) : (br.backend cfg).Lays br := by
  cases br with
  | x86 => exact X86.lays cfg
  | mips => exact Msa.lays cfg

theorem drafts (br : Branching) (cfg : Config) : (br.backend cfg).Drafts br := by
  cases br with
  | x86 => exact X86.drafts cfg
  | mips => exact Msa.drafts cfg

/-- The buffer after calls on a fresh assembler. -/
def after (br : Branching) (cfg : Config) (calls : List Call) : Buffer :=
  (Call.runAll (br.backend cfg) (.start .empty) calls).state

/-- A call that is accepted after others on a fresh assembler. -/
def Accepts (br : Branching) (cfg : Config) (before : List Call) (c : Call) : Prop :=
  c.Accepted (br.backend cfg) (Call.runAll (br.backend cfg) (.start .empty) before)

/-- Where calls on a fresh assembler bind a label. -/
def bound? (br : Branching) (cfg : Config) (calls : List Call) (l : LabelRef) : Option Nat :=
  l.bind fun l => Call.boundAt? (br.backend cfg) l.id (.start .empty) calls

theorem target?_after (br : Branching) (cfg : Config) (calls : List Call) (f : Fixup) :
    Buffer.target? (br.after cfg calls).labels f = br.bound? cfg calls f.label := by
  unfold Buffer.target? bound?
  cases f.label with
  | none => rfl
  | some l =>
    have placed := Call.place_runAll (br.lays cfg) (.start .empty) calls l.id
    have unplaced : Call.place (Assembler.start Buffer.empty).state l.id = none := by
      simp [Call.place, Assembler.start, Buffer.empty]
    rw [unplaced, Option.none_or] at placed
    refine Eq.trans ?_ placed
    show ((br.after cfg calls).labels[l.id]?.bind fun place => place)
      = (br.after cfg calls).labels[l.id]?.join
    cases (br.after cfg calls).labels[l.id]? <;> rfl

end Branching

/-- After any calls on a fresh encoder, code is laid out. Each reference lies in the bytes of a call that
jumps to its label, and each accepted jump has a reference to its label in its bytes. Finishing keeps the length. It succeeds if every label that is referred to is
bound within reach, and otherwise reports the first reference for which that fails. When it succeeds
every field leads from the end of its window to where its label was bound, and all other bytes are those
that were emitted. -/
theorem branches_resolved (br : Branching) (cfg : Config) (calls : List Call)
    (short : (br.after cfg calls).size < 2 ^ 63) :
    br.Laid (br.after cfg calls) ∧
    (∀ f ∈ (br.after cfg calls).fixups, ∃ before c rest, calls = before ++ c :: rest ∧
      c.target? = some f.label ∧ (br.after cfg before).size ≤ f.site ∧
      f.origin ≤ (br.after cfg (before ++ [c])).size) ∧
    (∀ before c rest l, calls = before ++ c :: rest → c.target? = some l → br.Accepts cfg before c →
      ∃ f ∈ (br.after cfg calls).fixups, f.label = l ∧ (br.after cfg before).size ≤ f.site ∧
        f.origin ≤ (br.after cfg (before ++ [c])).size) ∧
    (br.after cfg calls).finish.2.size = (br.after cfg calls).size ∧
    ((∃ code, (br.after cfg calls).finish.1 = .ok code) ↔ ∀ f ∈ (br.after cfg calls).fixups,
      ∃ t, br.bound? cfg calls f.label = some t ∧ br.Reaches (t - f.origin)) ∧
    (∀ fault, (br.after cfg calls).finish.1 = .error fault →
      ∃ before f rest, (br.after cfg calls).fixups.toList = before ++ f :: rest ∧
        (∀ g ∈ before, ∃ t, br.bound? cfg calls g.label = some t ∧ br.Reaches (t - g.origin)) ∧
        ((br.bound? cfg calls f.label = none ∧
            fault = .error (.ofCause (.neverBound f.label.name))) ∨
          ∃ t, br.bound? cfg calls f.label = some t ∧ ¬ br.Reaches (t - f.origin) ∧
            fault = .error (.ofCause (br.tooFar (t - f.origin))))) ∧
    ∀ code, (br.after cfg calls).finish.1 = .ok code → code.size = (br.after cfg calls).size ∧
      (∀ f ∈ (br.after cfg calls).fixups, ∃ t, br.bound? cfg calls f.label = some t ∧
        f.origin + br.unit * br.field code f.site.toNat = t) ∧
      ∀ i, (∀ f ∈ (br.after cfg calls).fixups, ¬ br.Covers f i) →
        code[i]? = (br.after cfg (calls.filter (!·.finishes))).code[i]? := by
  have lays := br.lays cfg
  have laid : br.Laid (br.after cfg calls) := Call.laid_runAll lays br.laid_empty calls
  have tracks := Call.tracks_runAll lays (e := .start .empty) (a := .start .empty)
    ⟨.refl br _, rfl, rfl⟩ br.laid_empty calls
  have finished := (Branching.Same.refl br (br.after cfg calls)).finish laid
  have resolves (f : Fixup) : br.Resolves (br.after cfg calls).labels f ↔
      ∃ t, br.bound? cfg calls f.label = some t ∧ br.Reaches (t - f.origin) := by
    rw [Branching.Resolves, Branching.target?_after]
  refine ⟨laid, fun f member => ?_, fun before c rest l split target accepted => ?_, finished.size, ?_⟩
  · refine (Call.reference_of_runAll lays _ calls member).resolve_left fun old => ?_
    simp [Assembler.start, Buffer.empty] at old
  · obtain ⟨f, member, label, inside⟩ := Call.exists_reference_of_run (br.drafts cfg) _ target accepted
    refine ⟨f, ?_, label, inside.1, ?_⟩
    · rw [split, Branching.after, Call.runAll_append]
      exact Call.mem_fixups_runAll lays member rest
    · rw [Branching.after, Call.runAll_append]
      exact inside.2
  rcases Branching.all_resolve_or_refused br (br.after cfg calls).labels
    (br.after cfg calls).fixups.toList with all | ⟨before, f, rest, c, split, others, refused⟩
  · have resolve : ∀ f ∈ (br.after cfg calls).fixups, br.Resolves (br.after cfg calls).labels f :=
      fun f member => all f (Array.mem_toList_iff.2 member)
    obtain ⟨ended, fields⟩ := laid.finish_ok short resolve
    refine ⟨⟨fun _ f member => (resolves f).1 (resolve f member), fun _ => ⟨_, ended⟩⟩, ?_, ?_⟩
    · intro fault failed
      rw [ended] at failed
      cases failed
    · intro code found
      obtain rfl := Except.ok.inj (ended.symm.trans found)
      refine ⟨finished.size, fun f member => ?_, fun i outside => ?_⟩
      · obtain ⟨t, target, leads⟩ := fields f member
        exact ⟨t, (br.target?_after cfg calls f).symm.trans target, leads⟩
      · refine (finished.code i outside).trans (tracks.state.code i fun f member => ?_)
        exact outside f (tracks.state.fixups ▸ member)
  · have failed := laid.finish_refused short split others refused
    have member : f ∈ (br.after cfg calls).fixups := by
      rw [← Array.mem_toList_iff, split]
      exact List.mem_append_right before List.mem_cons_self
    refine ⟨⟨?_, fun all => ?_⟩, ?_, ?_⟩
    · rintro ⟨code, found⟩
      rw [failed] at found
      cases found
    · exact absurd ((resolves f).2 (all f member)) refused.not_resolves
    · intro fault found
      obtain rfl := Except.error.inj (failed.symm.trans found)
      refine ⟨before, f, rest, split, fun g among => (resolves g).1 (others g among), ?_⟩
      rw [← br.target?_after]
      rcases refused with ⟨unbound, rfl⟩ | ⟨t, target, far, rfl⟩
      · exact .inl ⟨unbound, rfl⟩
      · exact .inr ⟨t, target, far, rfl⟩
    · intro code found
      rw [failed] at found
      cases found

/-- A jump to its own start, finished once before the end. -/
def selfLoop : List Call :=
  [.newLabel (.ofString "top"), .instr (.bind (some ⟨.ofString "top", 0⟩)), .finish,
    .instr (.jump (some ⟨.ofString "top", 0⟩)), .code]

theorem branches_resolved_selfLoop :
    (∃ code, (Branching.mips.after (.mips .mips64 "128" 1 64 64) selfLoop).finish.1 = .ok code ∧
      Branching.mips.field code 0 = -1) ∧
    let cfg := Config.x86 .sse2 "sse2" "128" 16 1
    (∃ f ∈ (Branching.x86.after cfg selfLoop).fixups, f.label = some ⟨.ofString "top", 0⟩) ∧
      ∃ code, (Branching.x86.after cfg selfLoop).finish.1 = .ok code ∧
        Branching.x86.field code 1 = -5 := by
  have resolved (br : Branching) (cfg : Config) (short : (br.after cfg selfLoop).size < 2 ^ 63)
      {f : Fixup} (fixups : (br.after cfg selfLoop).fixups = #[f])
      (bound : br.bound? cfg selfLoop f.label = some 0) (near : br.Reaches (0 - f.origin)) :
      ∃ code, (br.after cfg selfLoop).finish.1 = .ok code ∧
        f.origin + br.unit * br.field code f.site.toNat = 0 := by
    obtain ⟨-, -, -, -, succeeds, -, fields⟩ := branches_resolved br cfg selfLoop short
    rw [fixups] at succeeds fields
    obtain ⟨code, finished⟩ := succeeds.2 (by simpa using ⟨0, bound, near⟩)
    obtain ⟨-, leads, -⟩ := fields code finished
    obtain ⟨t, target, leads⟩ := leads f (Array.mem_singleton.2 rfl)
    obtain rfl := Option.some.inj (bound.symm.trans target)
    exact ⟨code, finished, leads⟩
  constructor
  · obtain ⟨code, finished, leads⟩ := resolved .mips (.mips .mips64 "128" 1 64 64) (by decide +kernel)
      (show _ = #[⟨.mips16, 0, 4, some ⟨.ofString "top", 0⟩⟩] by decide +kernel) (by decide +kernel)
      (by decide)
    refine ⟨code, finished, ?_⟩
    simp only [Branching.unit, Int.toNat_zero] at leads
    omega
  · intro cfg
    have accepted : Branching.x86.Accepts cfg (selfLoop.take 3)
        (.instr (.jump (some ⟨.ofString "top", 0⟩))) := ⟨rfl, rfl⟩
    obtain ⟨-, -, left, -⟩ := branches_resolved .x86 cfg selfLoop (by decide +kernel)
    obtain ⟨f, member, label, -⟩ := left _ _ [.code] _ rfl rfl accepted
    obtain ⟨code, finished, leads⟩ := resolved .x86 cfg (by decide +kernel)
      (show _ = #[⟨.rel32, 1, 5, some ⟨.ofString "top", 0⟩⟩] by decide +kernel) (by decide +kernel)
      (by decide)
    refine ⟨⟨f, member, label⟩, code, finished, ?_⟩
    simp only [Branching.unit, Int.toNat_one] at leads
    omega

end LaneAsm
