import LaneAsm.Proofs.Joining
import LaneAsm.Proofs.Layout

/-!
Finishing a buffer more than once. A finish that comes too early resolves references up to one that it
refuses, and code, labels and references may follow. What it has written is what a later finish writes
there again, wherever the windows lie and however they overlap, so nothing is seen of it in the end
(`finish_repeatable`): a buffer that was finished on the way is the one that was not, with some
references resolved from the first on (`Buffer.Resumes`).
-/
namespace LaneAsm

/-! ## Calls on a buffer -/

/-- A call on a code buffer. -/
inductive Edit where
  | emit (bytes : List UInt8)
  | emitWord (n : Nat) (x : UInt64)
  | newLabel (name : RawText)
  | bind (l : LabelRef)
  | fix (f : Fixup)
  | finish

namespace Edit

/-- The buffer after a call, however the call ends. -/
def run (b : Buffer) : Edit → Buffer
  | .emit bytes => b.emit bytes
  | .emitWord n x => b.emitWord n x
  | .newLabel name => (b.newLabel name).2
  | .bind l =>
    match b.bind l with
    | .ok bound => bound
    | .error _ => b
  | .fix f => b.fix f
  | .finish => b.finish.2

/-- A fresh buffer after calls in order. -/
def after (edits : List Edit) : Buffer := edits.foldl run .empty

def finishes : Edit → Bool
  | .finish => true
  | _ => false

/-- The number of bytes that a call emits. -/
def length : Edit → Nat
  | .emit bytes => bytes.length
  | .emitWord n _ => n
  | _ => 0

/-- The number of bytes that calls emit. -/
def total (edits : List Edit) : Nat := edits.foldr (fun e n => e.length + n) 0

end Edit

namespace Buffer

/-! ## Fields -/

/-- The bytes of the field of a reference. -/
def fieldWidth (f : Fixup) : Nat :=
  match f.kind with
  | .rel32 => 4
  | .mips16 => 2
  | .other _ => 0

/-- Byte `i` belongs to the field of a reference. -/
def Covers (f : Fixup) (i : Nat) : Prop := f.site ≤ i ∧ (i : Int) < f.site + fieldWidth f

section
variable {labels : Array (Option Nat)} {code done : Bytes} {f : Fixup} {fs : List Fixup}

/-- A write into the window of a reference, behind the test that it is in reach, is the same write into
other code of that size. -/
theorem write_elsewhere {site : Int} {far : Prop} [Decidable far] {e : Fault} {n : Nat} {x : UInt64}
    (short : n ≤ 4) (written : (if far then .error e
      else if 0 ≤ site && site + 4 ≤ code.size then .ok (code.write site.toNat (littleEndian n x))
      else .error .trap) = Except.ok done) :
    ∃ (o : Nat) (bs : List UInt8), o + bs.length ≤ code.size ∧
      (∀ i : Nat, site ≤ i ∧ (i : Int) < site + n ↔ o ≤ i ∧ i < o + bs.length) ∧
      ∀ other : Bytes, other.size = code.size → (if far then .error e
        else if 0 ≤ site && site + 4 ≤ other.size then .ok (other.write site.toNat (littleEndian n x))
        else .error .trap) = Except.ok (other.write o bs) := by
  by_cases near : far
  · rw [if_pos near] at written
    cases written
  rw [if_neg near] at written
  by_cases inside : 0 ≤ site ∧ site + 4 ≤ code.size
  · have length := length_littleEndian n x
    refine ⟨site.toNat, littleEndian n x, by omega, fun i => by omega, fun other size => ?_⟩
    rw [if_neg near, size, if_pos (by simpa using inside)]
  · rw [if_neg (by simpa using inside)] at written
    cases written

/-- What resolving a reference writes does not depend on what was there. -/
theorem patch_writes (patched : patch labels code f = .ok done) :
    ∃ (o : Nat) (bs : List UInt8), o + bs.length ≤ code.size ∧
      (∀ i, Covers f i ↔ o ≤ i ∧ i < o + bs.length) ∧
      ∀ other : Bytes, other.size = code.size → patch labels other f = .ok (other.write o bs) := by
  unfold patch at patched ⊢
  cases target : target? labels f with
  | none =>
    rw [target] at patched
    cases patched
  | some t =>
    rw [target] at patched
    dsimp only at patched ⊢
    unfold Covers fieldWidth
    cases kind : f.kind with
    | rel32 =>
      rw [kind] at patched
      exact write_elsewhere (by decide) patched
    | mips16 =>
      rw [kind] at patched
      exact write_elsewhere (by decide) patched
    | other n =>
      refine ⟨0, [], Nat.zero_le _, fun i => ?_, fun other _ => rfl⟩
      simp only [List.length_nil]
      omega

/-- Code of one size that agrees outside a field agrees there and in the field once it is written. -/
theorem patch_congr {other : Bytes} (size : other.size = code.size)
    (patched : patch labels code f = .ok done) :
    ∃ done', patch labels other f = .ok done' ∧
      ∀ i, Covers f i ∨ other[i]? = code[i]? → done'[i]? = done[i]? := by
  obtain ⟨o, bs, inside, covers, writes⟩ := patch_writes patched
  obtain rfl := Except.ok.inj (patched.symm.trans (writes code rfl))
  refine ⟨other.write o bs, writes other size, fun i agree => ?_⟩
  rw [covers] at agree
  rw [Bytes.getElem?_write inside, Bytes.getElem?_write (size.symm ▸ inside)]
  split
  · rfl
  · next outside => exact agree.resolve_left outside

theorem patch_outside (patched : patch labels code f = .ok done) {i : Nat} (outside : ¬ Covers f i) :
    done[i]? = code[i]? := by
  obtain ⟨o, bs, inside, covers, writes⟩ := patch_writes patched
  obtain rfl := Except.ok.inj (patched.symm.trans (writes code rfl))
  rw [Bytes.getElem?_write inside, if_neg (mt (covers i).2 outside)]

/-! ## Resolving again -/

theorem patchAll_outside (patched : patchAll labels fs code = (.ok (), done)) {i : Nat}
    (outside : ∀ f ∈ fs, ¬ Covers f i) : done[i]? = code[i]? := by
  induction fs generalizing code with
  | nil =>
    obtain ⟨-, rfl⟩ := Prod.mk.inj patched
    rfl
  | cons f fs ih =>
    obtain ⟨here, rest⟩ := List.forall_mem_cons.1 outside
    rw [patchAll] at patched
    split at patched
    · next first => rw [ih patched rest, patch_outside first here]
    · cases patched

/-- Resolving the same references in code that differs only in their fields gives the same. The last
reference to write a byte decides, whatever was written there before. -/
theorem patchAll_congr {other : Bytes} (size : other.size = code.size)
    (agree : ∀ i, (∃ f ∈ fs, Covers f i) ∨ other[i]? = code[i]?)
    (patched : patchAll labels fs code = (.ok (), done)) :
    patchAll labels fs other = (.ok (), done) := by
  induction fs generalizing code other with
  | nil =>
    obtain ⟨-, rfl⟩ := Prod.mk.inj patched
    have same : other = code := Array.ext_getElem? fun i => (agree i).resolve_left (by simp)
    rw [same]
    rfl
  | cons f fs ih =>
    rw [patchAll] at patched
    split at patched
    · next code' first =>
      obtain ⟨other', first', agree'⟩ := patch_congr size first
      rw [patchAll, first']
      refine ih (by rw [size_patch first', size_patch first, size]) (fun i => ?_) patched
      rcases agree i with ⟨g, member, covers⟩ | same
      · rcases List.mem_cons.1 member with rfl | later
        · exact .inr (agree' i (.inl covers))
        · exact .inl ⟨g, later, covers⟩
      · exact .inr (agree' i (.inr same))
    · cases patched

/-- Resolving references that were resolved before, and others behind them, gives what resolving them
for the first time gives. -/
theorem patchAll_again (first : patchAll labels fs code = (.ok (), done)) (rest : List Fixup) :
    patchAll labels (fs ++ rest) done = patchAll labels (fs ++ rest) code := by
  have again : patchAll labels fs done = (.ok (), done) := by
    refine patchAll_congr (size_patchAll first) (fun i => ?_) first
    by_cases written : ∃ f ∈ fs, Covers f i
    · exact .inl written
    · exact .inr (patchAll_outside first fun f member covers => written ⟨f, member, covers⟩)
  rw [patchAll_append first, patchAll_append again]

/-- What resolving leaves behind is what the references resolved before it stopped have written. -/
theorem exists_resolved (labels : Array (Option Nat)) (fs : List Fixup) (code : Bytes) :
    ∃ front rest, fs = front ++ rest ∧
      patchAll labels front code = (.ok (), (patchAll labels fs code).2) := by
  induction fs generalizing code with
  | nil => exact ⟨[], [], rfl, rfl⟩
  | cons f fs ih =>
    cases patched : patch labels code f with
    | error e => exact ⟨[], f :: fs, rfl, by rw [patchAll, patchAll, patched]⟩
    | ok code' =>
      obtain ⟨front, rest, rfl, resolved⟩ := ih code'
      exact ⟨f :: front, rest, rfl, by rw [patchAll, patchAll, patched]; exact resolved⟩

theorem patch_untrapped (window : 0 ≤ f.site ∧ f.site + 4 ≤ code.size) :
    patch labels code f ≠ .error .trap := by
  have inside : (0 ≤ f.site && f.site + 4 ≤ code.size) = true := by simpa using window
  intro trapped
  unfold patch at trapped
  split at trapped
  · cases trapped
  · simp only [inside, if_true] at trapped
    split at trapped
    · split at trapped <;> cases trapped
    · split at trapped <;> cases trapped
    · cases trapped

theorem patchAll_untrapped (windows : ∀ f ∈ fs, 0 ≤ f.site ∧ f.site + 4 ≤ code.size) :
    (patchAll labels fs code).1 ≠ .error .trap := by
  induction fs generalizing code with
  | nil =>
    intro trapped
    cases trapped
  | cons f fs ih =>
    obtain ⟨here, rest⟩ := List.forall_mem_cons.1 windows
    rw [patchAll]
    cases patched : patch labels code f with
    | ok code' => exact ih (size_patch patched ▸ rest)
    | error e =>
      intro trapped
      obtain rfl := Except.error.inj trapped
      exact patch_untrapped here patched

end

/-! ## Labels that keep their offsets -/

/-- Bound labels are bound to the same offsets among other labels. -/
def Keeps (labels labels' : Array (Option Nat)) : Prop :=
  ∀ (id o : Nat), labels[id]? = some (some o) → labels'[id]? = some (some o)

theorem Keeps.refl (labels : Array (Option Nat)) : Keeps labels labels := fun _ _ bound => bound

theorem Keeps.trans {first second third : Array (Option Nat)} (front : Keeps first second)
    (back : Keeps second third) : Keeps first third :=
  fun id o bound => back id o (front id o bound)

theorem keeps_newLabel (b : Buffer) (name : RawText) : Keeps b.labels (b.newLabel name).2.labels := by
  intro id o bound
  have inside := (Array.getElem?_eq_some_iff.1 bound).1
  show (b.labels.push none)[id]? = some (some o)
  rw [Array.getElem?_push, if_neg (by omega), bound]

theorem keeps_bind {b bound : Buffer} {l : LabelRef} (done : b.bind l = .ok bound) :
    Keeps b.labels bound.labels := by
  unfold Buffer.bind at done
  split at done
  · cases done
  · next l =>
    split at done
    · cases done
    · cases done
    · next free =>
      cases done
      intro id o old
      have other : l.id ≠ id := by
        rintro rfl
        rw [old] at free
        cases free
      show (b.labels.setIfInBounds _ _)[id]? = some (some o)
      rw [Array.getElem?_setIfInBounds_ne other, old]

/-- Binding a label changes labels alone and makes none, and looks at labels and the size alone. -/
theorem bind_cases {b e : Buffer} (labels : b.labels = e.labels) (size : b.size = e.size)
    (l : LabelRef) :
    (∃ fault, b.bind l = .error fault ∧ e.bind l = .error fault) ∨
      ∃ bound : Array (Option Nat), bound.size = e.labels.size ∧
        b.bind l = .ok { b with labels := bound } ∧ e.bind l = .ok { e with labels := bound } := by
  unfold Buffer.bind
  cases l with
  | none => exact .inl ⟨_, rfl, rfl⟩
  | some l =>
    dsimp only
    rw [labels, size]
    rcases e.labels[l.id]? with _ | _ | o
    · exact .inl ⟨_, rfl, rfl⟩
    · exact .inr ⟨_, Array.size_setIfInBounds, rfl, rfl⟩
    · exact .inl ⟨_, rfl, rfl⟩

/-- Resolved references are resolved in the same way when code and labels have been added. -/
theorem patchAll_later {labels labels' : Array (Option Nat)} (keeps : Keeps labels labels')
    {fs : List Fixup} {code done : Bytes} (patched : patchAll labels fs code = (.ok (), done))
    (more : List UInt8) : patchAll labels' fs (code ++ more) = (.ok (), done ++ more) := by
  have targets (f : Fixup) (t : Nat) (target : target? labels f = some t) :
      target? labels' (id f) = some ((#[] : Bytes).size + t) := by
    obtain ⟨l, label, placed⟩ := Option.bind_eq_some_iff.1 target
    obtain ⟨place, found, rfl⟩ := Option.bind_eq_some_iff.1 placed
    simp only [id, target?, label, Option.bind_eq_bind, Option.bind_some, keeps _ _ found,
      Array.size_empty, Nat.zero_add]
  have array (v : Bytes) : v ++ more = v ++ more.toArray := Array.toList_inj.1 (by simp)
  rw [array, array]
  simpa using patchAll_between #[] more.toArray id (fun f => by simp) targets patched

/-! ## Buffers that were finished on the way -/

theorem finish_eq (b : Buffer) : b.finish =
    ((patchAll b.labels b.fixups.toList b.code).1.map fun _ =>
      (patchAll b.labels b.fixups.toList b.code).2,
      { b with code := (patchAll b.labels b.fixups.toList b.code).2 }) := rfl

theorem finish_untrapped {b : Buffer} (windows : ∀ f ∈ b.fixups, 0 ≤ f.site ∧ f.site + 4 ≤ b.size) :
    b.finish.1 ≠ .error .trap := by
  have calm := @patchAll_untrapped b.labels b.code _ fun f member =>
    windows f (Array.mem_toList_iff.1 member)
  intro trapped
  rw [finish_eq] at trapped
  cases ended : (patchAll b.labels b.fixups.toList b.code).1 with
  | ok _ =>
    rw [ended] at trapped
    cases trapped
  | error e =>
    rw [ended] at trapped
    obtain rfl := Except.error.inj trapped
    exact calm ended

/-- A buffer is another one with some of its references resolved, from the first on. -/
structure Resumes (b e : Buffer) : Prop where
  labels : b.labels = e.labels
  fixups : b.fixups = e.fixups
  code : ∃ front rest, e.fixups.toList = front ++ rest ∧
    patchAll e.labels front e.code = (.ok (), b.code)

theorem Resumes.refl (b : Buffer) : b.Resumes b := ⟨rfl, rfl, [], _, rfl, rfl⟩

section
variable {b e : Buffer} (resumes : b.Resumes e)
include resumes

theorem Resumes.size : b.size = e.size := by
  obtain ⟨front, rest, -, patched⟩ := resumes.code
  exact size_patchAll patched

/-- Finishing goes on as if nothing had been resolved before. -/
theorem Resumes.finish_eq : b.finish = e.finish := by
  obtain ⟨front, rest, split, patched⟩ := resumes.code
  have again : patchAll b.labels b.fixups.toList b.code
      = patchAll e.labels e.fixups.toList e.code := by
    rw [resumes.labels, resumes.fixups, split]
    exact patchAll_again patched rest
  rw [Buffer.finish_eq, Buffer.finish_eq, again, resumes.labels, resumes.fixups]

theorem Resumes.finish : b.finish.2.Resumes e := by
  rw [resumes.finish_eq]
  exact ⟨rfl, rfl, exists_resolved e.labels e.fixups.toList e.code⟩

/-- A call that does not finish keeps what has been resolved. -/
theorem Resumes.run {edit : Edit} (goes : edit.finishes = false) :
    (edit.run b).Resumes (edit.run e) := by
  have size := resumes.size
  obtain ⟨labels, fixups, front, rest, split, patched⟩ := resumes
  have emit (bytes : List UInt8) : (b.emit bytes).Resumes (e.emit bytes) :=
    ⟨labels, fixups, front, rest, split, patchAll_later (.refl _) patched bytes⟩
  cases edit with
  | emit bytes => exact emit bytes
  | emitWord n x => exact emit (littleEndian n x)
  | newLabel name =>
    refine ⟨congrArg (·.push none) labels, fixups, front, rest, split, ?_⟩
    have later := patchAll_later (e.keeps_newLabel name) patched []
    rwa [Array.appendList_nil, Array.appendList_nil] at later
  | bind l =>
    rcases bind_cases labels size l with ⟨fault, left, right⟩ | ⟨bound, -, left, right⟩
    · simp only [Edit.run, left, right]
      exact ⟨labels, fixups, front, rest, split, patched⟩
    · simp only [Edit.run, left, right]
      refine ⟨rfl, fixups, front, rest, split, ?_⟩
      have later := patchAll_later (keeps_bind right) patched []
      rwa [Array.appendList_nil, Array.appendList_nil] at later
  | fix f =>
    refine ⟨labels, congrArg (·.push f) fixups, front, rest ++ [f], ?_, patched⟩
    show (e.fixups.push f).toList = _
    rw [Array.toList_push, split, List.append_assoc]
  | finish => cases goes

end

end Buffer

namespace Edit

/-! ## Whole runs -/

theorem size_run (b : Buffer) (edit : Edit) : (edit.run b).size = b.size + edit.length := by
  cases edit with
  | emit bytes => exact Buffer.size_emit b bytes
  | emitWord n x => rw [run, Buffer.emitWord, Buffer.size_emit, length_littleEndian, length]
  | bind l =>
    rcases Buffer.bind_cases (b := b) rfl rfl l with ⟨fault, refused, -⟩ | ⟨bound, -, done, -⟩
    · simp only [run, refused]
      rfl
    · simp only [run, done]
      rfl
  | finish =>
    obtain ⟨front, rest, -, resolved⟩ := Buffer.exists_resolved b.labels b.fixups.toList b.code
    exact Buffer.size_patchAll resolved
  | _ => rfl

theorem keeps_run (b : Buffer) (edit : Edit) : Buffer.Keeps b.labels (edit.run b).labels := by
  cases edit with
  | newLabel name => exact b.keeps_newLabel name
  | bind l =>
    rcases Buffer.bind_cases (b := b) rfl rfl l with ⟨fault, refused, -⟩ | ⟨bound, -, done, -⟩
    · simp only [run, refused]
      exact .refl _
    · simp only [run, done]
      exact Buffer.keeps_bind done
  | _ => exact .refl _

theorem size_runAll (b : Buffer) (edits : List Edit) :
    (edits.foldl run b).size = b.size + total edits := by
  induction edits generalizing b with
  | nil => rfl
  | cons edit edits ih =>
    rw [List.foldl_cons, ih, size_run, Nat.add_assoc]
    rfl

theorem keeps_runAll (b : Buffer) (edits : List Edit) :
    Buffer.Keeps b.labels (edits.foldl run b).labels := by
  induction edits generalizing b with
  | nil => exact .refl _
  | cons edit edits ih => exact (keeps_run b edit).trans (ih _)

/-- Calls with and without the finishes among them. -/
theorem resumes_runAll {b e : Buffer} (resumes : b.Resumes e) (edits : List Edit) :
    (edits.foldl run b).Resumes ((edits.filter (!·.finishes)).foldl run e) := by
  induction edits generalizing b e with
  | nil => exact resumes
  | cons edit edits ih =>
    cases goes : edit.finishes with
    | false =>
      rw [List.filter_cons_of_pos (by rw [goes]; rfl)]
      exact ih (resumes.run goes)
    | true =>
      rw [List.filter_cons_of_neg (by rw [goes]; decide)]
      cases edit with
      | finish => exact ih resumes.finish
      | _ => cases goes

end Edit

/-- A buffer can be finished any number of times. Calls with finishes among them, which may succeed or
fail, end in the same code or the same error as those calls without the finishes. All windows being
there, the last finish does not trap. The size is the number of bytes emitted, and a label that is
bound at some point stays bound to the same offset. -/
theorem finish_repeatable (edits : List Edit) :
    let b := Edit.after edits
    b.finish = (Edit.after (edits.filter (!·.finishes))).finish ∧
    ((∀ f ∈ b.fixups, 0 ≤ f.site ∧ f.site + 4 ≤ b.size) → b.finish.1 ≠ .error .trap) ∧
    b.size = Edit.total edits ∧
    ∀ before rest, edits = before ++ rest → ∀ (id o : Nat),
      (Edit.after before).labels[id]? = some (some o) → b.labels[id]? = some (some o) := by
  intro b
  have resumes := Edit.resumes_runAll (.refl .empty) edits
  refine ⟨resumes.finish_eq, Buffer.finish_untrapped, ?_, ?_⟩
  · exact (Edit.size_runAll .empty edits).trans (Nat.zero_add _)
  · rintro before rest rfl
    have split : b = rest.foldl Edit.run (Edit.after before) := List.foldl_append
    rw [split]
    exact Edit.keeps_runAll _ rest

/-- Calls whose first finish succeeds and whose second fails, with fields that overlap. -/
def overlapping : List Edit :=
  let start : Label := ⟨.ofString "start", 0⟩
  let stop : Label := ⟨.ofString "stop", 1⟩
  [.newLabel start.name, .bind start, .emitWord 8 0, .fix ⟨.rel32, 0, 4, start⟩, .finish,
    .newLabel stop.name, .fix ⟨.mips16, 2, 6, stop⟩, .finish, .emit [0x90, 0x90], .bind stop]

theorem finish_repeatable_overlapping :
    let b := Edit.after overlapping
    (∀ f ∈ b.fixups, 0 ≤ f.site ∧ f.site + 4 ≤ b.size) ∧ b.finish.1 ≠ .error .trap ∧
      b.finish.1 = .ok #[0xFC, 0xFF, 0x01, 0x00, 0, 0, 0, 0, 0x90, 0x90] := by
  intro b
  obtain ⟨same, calm, -, -⟩ := finish_repeatable overlapping
  have windows : ∀ f ∈ b.fixups, 0 ≤ f.site ∧ f.site + 4 ≤ b.size := by decide +kernel
  refine ⟨windows, calm windows, ?_⟩
  rw [same]
  rfl

end LaneAsm
