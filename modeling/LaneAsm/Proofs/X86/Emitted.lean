import LaneAsm.Proofs.Branches
import Mathlib.Data.List.Forall2

/-!
The instructions that calls emit, and the code they leave. Code is spelled by the instructions in the
order they were emitted, with any distance in a jump (`Spells`); every reference is the distance of a
jump, so resolving references keeps that (`Spells.patch`), and so does every call (`holds_runAll`).
-/
namespace LaneAsm.X86

/-- The bytes of an instruction as they stand in code: the distance of a jump is its last four bytes
and may be any. -/
inductive Insn.Written (short : Bool) (i : Insn) : List UInt8 → Prop
  | plain (other : i.target? = none) : Written short i (i.bytes short)
  | jump {front old distance : List UInt8} (jumps : i.target? ≠ none)
      (bytes : i.bytes short = front ++ old) (room : old.length = 4) (closed : distance.length = 4) :
      Written short i (front ++ distance)

/-- Code that is spelled by instructions in order, each by its own bytes. -/
def Spells (short : Bool) (is : List Insn) (code : List UInt8) : Prop :=
  ∃ chunks, List.Forall₂ (Insn.Written short) is chunks ∧ chunks.flatten = code

/-- The bytes of instructions that have no distances yet. -/
def span (short : Bool) (is : List Insn) : Nat := (is.flatMap (·.bytes short)).length

/-! ## Instructions of calls -/

/-- The instructions of primitives, up to the first that fails. -/
def issued (cfg : Config) : List Primitive → Buffer → List Insn
  | [], _ => []
  | p :: ps, s => (select cfg p).items ++ match issue cfg p s with
    | (.ok (), s) => issued cfg ps s
    | (.error _, _) => []

/-- The instructions that a call emits. An assembler with an error emits none. -/
def insns (cfg : Config) (a : Assembler Buffer) : Call → List Insn
  | .request p => (select cfg p).items
  | .instr i => if a.error? = none then issued cfg ((backend cfg).lower i).items a.state else []
  | _ => []

/-- The instructions that calls emit, in order. -/
def insnsAll (cfg : Config) : Assembler Buffer → List Call → List Insn
  | _, [] => []
  | a, c :: cs => insns cfg a c ++ insnsAll cfg (c.run (backend cfg) a) cs

/-- The instructions that calls on a fresh assembler emit. -/
def emitted (cfg : Config) (calls : List Call) : List Insn := insnsAll cfg (.start .empty) calls

/-! ## Spelled code -/

section
variable {short : Bool} {i : Insn} {is : List Insn}

theorem Insn.Written.length {c : List UInt8} (written : i.Written short c) :
    c.length = (i.bytes short).length := by
  cases written with
  | plain => rfl
  | jump _ bytes room closed => rw [bytes, List.length_append, List.length_append, room, closed]

/-- What is emitted spells its instruction. -/
theorem Insn.written_bytes (short : Bool) (i : Insn) : i.Written short (i.bytes short) := by
  by_cases jumps : i.target? = none
  · exact .plain jumps
  · have room : 4 ≤ (i.bytes short).length := (piece_formed short i).window jumps
    have split : i.bytes short = (i.bytes short).take ((i.bytes short).length - 4)
        ++ (i.bytes short).drop ((i.bytes short).length - 4) := (List.take_append_drop _ _).symm
    have last : ((i.bytes short).drop ((i.bytes short).length - 4)).length = 4 := by
      rw [List.length_drop]
      omega
    have written : i.Written short _ := .jump jumps split last last
    rwa [← split] at written

theorem length_flatten {chunks : List (List UInt8)} (written : List.Forall₂ (Insn.Written short) is chunks) :
    chunks.flatten.length = span short is := by
  induction written with
  | nil => rfl
  | cons first _ ih =>
    rw [span] at *
    rw [List.flatten_cons, List.flatMap_cons, List.length_append, List.length_append, ih, first.length]

theorem Spells.length {code : List UInt8} (spells : Spells short is code) :
    code.length = span short is := by
  obtain ⟨chunks, written, rfl⟩ := spells
  exact length_flatten written

theorem spells_nil (short : Bool) : Spells short [] [] := ⟨[], .nil, rfl⟩

theorem Spells.append {code : List UInt8} (spells : Spells short is code) (i : Insn) :
    Spells short (is ++ [i]) (code ++ i.bytes short) := by
  obtain ⟨chunks, written, rfl⟩ := spells
  refine ⟨chunks ++ [i.bytes short], ?_, by simp⟩
  exact List.rel_append written (.cons (i.written_bytes short) .nil)

/-- A reference to the distance of one of the instructions. -/
def Refers (short : Bool) (is : List Insn) (f : Fixup) : Prop :=
  f.kind = .rel32 ∧ ∃ front i back, is = front ++ i :: back ∧ i.target? ≠ none ∧
    f.site + 4 = span short (front ++ [i])

theorem Refers.append {f : Fixup} (refers : Refers short is f) (more : List Insn) :
    Refers short (is ++ more) f := by
  obtain ⟨kind, front, i, back, rfl, jumps, site⟩ := refers
  exact ⟨kind, front, i, back ++ more, by simp, jumps, site⟩

theorem exists_split_of_written {front back : List Insn} {chunks : List (List UInt8)}
    (written : List.Forall₂ (Insn.Written short) (front ++ back) chunks) :
    ∃ before after, List.Forall₂ (Insn.Written short) front before ∧
      List.Forall₂ (Insn.Written short) back after ∧ chunks = before ++ after := by
  refine ⟨chunks.take front.length, chunks.drop front.length, ?_, ?_, by simp⟩
  · simpa using List.forall₂_take front.length written
  · simpa using List.forall₂_drop front.length written

theorem toList_write_between {v : Bytes} {front old new back : List UInt8}
    (split : v.toList = front ++ old ++ back) (same : new.length = old.length) :
    (v.write front.length new).toList = front ++ new ++ back := by
  have inside : front.length + new.length ≤ v.size := by
    rw [← Array.length_toList, split, List.length_append, List.length_append, same]
    omega
  have behind : front.length + new.length = (front ++ old).length := by rw [List.length_append, same]
  have start : v.toList.take front.length = front := by
    rw [split, List.append_assoc, List.take_left' rfl]
  rw [Bytes.toList_write _ _ _ inside, start, split, behind, List.drop_left' rfl]

/-- Other bytes in the distance of a jump spell the same instructions. -/
theorem Spells.write {code : Bytes} (spells : Spells short is code.toList) {f : Fixup}
    (refers : Refers short is f) {distance : List UInt8} (whole : distance.length = 4) :
    Spells short is (code.write f.site.toNat distance).toList := by
  obtain ⟨chunks, written, joined⟩ := spells
  obtain ⟨-, front, i, back, rfl, jumps, site⟩ := refers
  obtain ⟨before, later, first, rest, rfl⟩ := exists_split_of_written written
  obtain ⟨c, after, here, others, rfl⟩ := List.forall₂_cons_left_iff.1 rest
  cases here with
  | plain other => exact absurd other jumps
  | @jump opening old former _ bytes room closed =>
    have start : f.site.toNat = (before.flatten ++ opening).length := by
      have total : span short (front ++ [i]) = before.flatten.length + (opening.length + 4) := by
        rw [span, List.flatMap_append, List.length_append, length_flatten first, span]
        simp [bytes, room]
      rw [List.length_append]
      omega
    have split : code.toList = (before.flatten ++ opening) ++ former ++ after.flatten := by
      rw [← joined]
      simp
    refine ⟨before ++ (opening ++ distance) :: after, ?_, ?_⟩
    · exact List.rel_append first (.cons (.jump jumps bytes room whole) others)
    · rw [start, toList_write_between split (whole.trans closed.symm)]
      simp

theorem Spells.patch {labels : Array (Option Nat)} {code code' : Bytes} {f : Fixup}
    (spells : Spells short is code.toList) (refers : Refers short is f)
    (patched : Buffer.patch labels code f = .ok code') : Spells short is code'.toList := by
  unfold Buffer.patch at patched
  rw [refers.1] at patched
  dsimp only at patched
  split at patched
  · cases patched
  split at patched
  · cases patched
  split at patched
  · obtain rfl := Except.ok.inj patched
    exact spells.write refers (length_littleEndian _ _)
  · cases patched

theorem Spells.patchAll {labels : Array (Option Nat)} {fs : List Fixup} {code : Bytes}
    (spells : Spells short is code.toList) (refers : ∀ f ∈ fs, Refers short is f) :
    Spells short is (Buffer.patchAll labels fs code).2.toList := by
  induction fs generalizing code with
  | nil => exact spells
  | cons f fs ih =>
    obtain ⟨here, rest⟩ := List.forall_mem_cons.1 refers
    rw [Buffer.patchAll]
    split
    · next code' patched => exact ih (spells.patch here patched) rest
    · exact spells

/-! ## Buffers -/

/-- A buffer that holds instructions: they spell its code, and its references are to their distances. -/
structure Holds (short : Bool) (is : List Insn) (s : Buffer) : Prop where
  code : Spells short is s.code.toList
  fixups : ∀ f ∈ s.fixups, Refers short is f

variable {s : Buffer}

theorem holds_empty (short : Bool) : Holds short [] Buffer.empty :=
  ⟨spells_nil short, by simp [Buffer.empty]⟩

theorem Holds.append (holds : Holds short is s) (i : Insn) :
    Holds short (is ++ [i]) (i.append short s) := by
  rw [append_eq_put]
  constructor
  · rw [Branching.code_put]
    have all : Branching.x86.all ⟨i.bytes short, i.target?⟩ = i.bytes short := by
      unfold Branching.all
      cases i.target? <;> simp [Branching.slot]
    rw [all, Array.toList_appendList]
    exact holds.code.append i
  · intro f member
    rcases Branching.mem_fixups_put.1 member with old | new
    · exact (holds.fixups f old).append [i]
    · obtain ⟨-, -, kind, origin, site⟩ := Branching.of_reference? (piece_formed short i) new
      obtain ⟨l, target, -⟩ := Option.map_eq_some_iff.1 new
      refine ⟨kind, is, i, [], rfl, ?_, ?_⟩
      · rw [show i.target? = some l from target]
        exact Option.some_ne_none l
      · have size : s.size = span short is := by
          rw [← holds.code.length, Array.length_toList]
          rfl
        rw [site, origin, size, span, span, List.flatMap_append, List.length_append]
        simp

theorem Holds.appendAll (holds : Holds short is s) (more : List Insn) :
    Holds short (is ++ more) (more.foldl (Insn.append short) s) := by
  induction more generalizing is s with
  | nil => rwa [List.append_nil]
  | cons i more ih =>
    have next := ih (holds.append i)
    rwa [List.append_assoc] at next

theorem Holds.bind {l : LabelRef} {s' : Buffer} (holds : Holds short is s) (bound : s.bind l = .ok s') :
    Holds short is s' := by
  have same : s'.code = s.code ∧ s'.fixups = s.fixups := by
    unfold Buffer.bind at bound
    repeat' split at bound
    all_goals cases bound
    exact ⟨rfl, rfl⟩
  exact ⟨same.1 ▸ holds.code, same.2 ▸ holds.fixups⟩

theorem Holds.finish (holds : Holds short is s) : Holds short is s.finish.2 :=
  ⟨holds.code.patchAll fun f member => holds.fixups f (Array.mem_toList_iff.1 member), holds.fixups⟩

/-- Finished code is spelled by the instructions of the buffer. -/
theorem Holds.finished (holds : Holds short is s) {code : Bytes} (ended : s.finish.1 = .ok code) :
    Spells short is code.toList := by
  have kept := holds.finish.code
  rcases patched : Buffer.patchAll s.labels s.fixups.toList s.code with ⟨outcome, code'⟩
  simp only [Buffer.finish, patched] at ended kept
  cases outcome with
  | ok _ => exact Except.ok.inj ended ▸ kept
  | error e => cases ended

end

/-! ## Calls -/

section
variable {cfg : Config} {is : List Insn}

theorem holds_issue {s : Buffer} (holds : Holds cfg.shortAddress is s) (p : Primitive) :
    Holds cfg.shortAddress (is ++ (select cfg p).items) (issue cfg p s).2 := by
  by_cases binding : ∃ l, p = .bind l
  · obtain ⟨l, rfl⟩ := binding
    show Holds _ (is ++ []) _
    rw [List.append_nil, issue]
    cases bound : s.bind l with
    | ok s' => exact holds.bind bound
    | error e => exact holds
  · have appended : (issue cfg p s).2 = (select cfg p).items.foldl (Insn.append cfg.shortAddress) s := by
      cases p <;> first | rfl | exact absurd ⟨_, rfl⟩ binding
    rw [appended]
    exact holds.appendAll _

theorem holds_issueAll {s : Buffer} (holds : Holds cfg.shortAddress is s) (ps : List Primitive) :
    Holds cfg.shortAddress (is ++ issued cfg ps s) ((backend cfg).issueAll ps s).2 := by
  induction ps generalizing is s with
  | nil =>
    show Holds _ (is ++ []) _
    rwa [List.append_nil]
  | cons p ps ih =>
    have first := holds_issue holds p
    rcases ended : issue cfg p s with ⟨_ | _, s'⟩
    · rw [ended] at first
      rw [Backend.issueAll, issued, show (backend cfg).issue p s = _ from ended, ended, List.append_nil]
      exact first
    · rw [ended] at first
      have rest := ih first
      rw [Backend.issueAll, issued, show (backend cfg).issue p s = _ from ended, ended,
        ← List.append_assoc]
      exact rest

/-- A call keeps what a buffer holds and adds the instructions it emits. -/
theorem holds_run {a : Assembler Buffer} (holds : Holds cfg.shortAddress is a.state) (c : Call) :
    Holds cfg.shortAddress (is ++ insns cfg a c) (c.run (backend cfg) a).state := by
  have finished : Holds cfg.shortAddress (is ++ []) ((backend cfg).finish a.state).2 := by
    rw [List.append_nil]
    exact holds.finish
  cases c with
  | newLabel name =>
    show Holds _ (is ++ []) (a.state.newLabel name).2
    rw [List.append_nil]
    exact ⟨holds.code, holds.fixups⟩
  | request p => exact holds_issue holds p
  | instr i =>
    show Holds _ (is ++ if a.error? = none then _ else []) (a.issue (backend cfg) i).2.state
    rw [Call.state_issue]
    split
    · exact holds_issueAll holds _
    · rwa [List.append_nil]
  | finish => exact finished
  | code =>
    show Holds _ (is ++ []) (a.code (backend cfg)).2.state
    unfold Assembler.code
    split
    · rwa [List.append_nil]
    · exact finished

theorem holds_runAll {a : Assembler Buffer} (holds : Holds cfg.shortAddress is a.state)
    (calls : List Call) : Holds cfg.shortAddress (is ++ insnsAll cfg a calls)
      (Call.runAll (backend cfg) a calls).state := by
  induction calls generalizing is a with
  | nil =>
    show Holds _ (is ++ []) _
    rwa [List.append_nil]
  | cons c cs ih =>
    have rest := ih (holds_run holds c)
    rwa [List.append_assoc] at rest

/-- The buffer after calls on a fresh assembler holds the instructions they emit. -/
theorem holds_after (cfg : Config) (calls : List Call) :
    Holds cfg.shortAddress (emitted cfg calls) (Branching.x86.after cfg calls) := by
  have fresh : Holds cfg.shortAddress [] (Assembler.start Buffer.empty).state := holds_empty _
  exact holds_runAll fresh calls

end

end LaneAsm.X86
