import LaneAsm.Proofs.Branches
import LaneAsm.Proofs.Requests

/-!
The first error of an assembler is kept. Apart from the assembler, an instruction has an outcome and
leaves a program behind (`Backend.perform`), and calls that all end well have a last program
(`Use.Smooth`, `Use.reached`). An assembler without an error does just that (`Use.run_smooth`); one
with an error counts and does nothing more (`Use.runAll_kept`). So the calls behind the first failing
one change neither the error nor anything of the program but the labels that are made.
-/
namespace LaneAsm

variable {σ : Type}

/-! ## One instruction -/

/-- What an instruction does to a program: how it ends, and the program after it. -/
def Backend.perform (b : Backend σ) (i : Instr LabelRef) (s : σ) : Except Fault Unit × σ :=
  let (done, s) := b.issueAll (b.lower i).items s
  (done.bind fun _ => (b.lower i).outcome, s)

namespace Assembler

variable {b : Backend σ} {a : Assembler σ} {i : Instr LabelRef}

/-- With an error kept, an instruction is counted and nothing else. -/
theorem issue_kept {e : Error} (kept : a.error? = some e) :
    a.issue b i = (.ok (), { a with count := a.count + 1 }) := by
  simp only [issue, kept]

theorem issue_performed (clear : a.error? = none) (ended : (b.perform i a.state).1 = .ok ()) :
    a.issue b i = (.ok (), ⟨(b.perform i a.state).2, a.count + 1, none⟩) := by
  simp only [Backend.perform] at ended ⊢
  simp only [issue, clear, ended]

/-- The first error is kept with the number and the name of its instruction. -/
theorem issue_failed {x : Error} (clear : a.error? = none)
    (ended : (b.perform i a.state).1 = .error (.error x)) :
    a.issue b i = (.ok (), ⟨(b.perform i a.state).2, a.count + 1,
      some (x.within (.instruction (a.count + 1) i.name))⟩) := by
  simp only [Backend.perform] at ended ⊢
  simp only [issue, clear, ended]

end Assembler

theorem Error.message_within (e : Error) (p : Place) :
    (e.within p).message = p.text ++ ": " ++ e.message := rfl

/-! ## Calls -/

namespace Use

variable {b : Backend σ}

/-- What a call does to a program, with no error kept before it. Finishing the code may fail, but no
error of it is kept. -/
def act (b : Backend σ) (s : σ) : Use → Except Fault Unit × σ
  | .newLabel name => (.ok (), (b.newLabel name s).2)
  | .instr i => b.perform i s
  | .code => (.ok (), (b.finish s).2)

/-- The program after calls in order. -/
def reached (b : Backend σ) (s : σ) (uses : List Use) : σ := uses.foldl (fun s u => (u.act b s).2) s

/-- Every one of the calls ends well. -/
def Smooth (b : Backend σ) : σ → List Use → Prop
  | _, [] => True
  | s, u :: uses => (u.act b s).1 = .ok () ∧ Smooth b (u.act b s).2 uses

/-- Whether a call is counted: the instructions are. -/
def counted : Use → Bool
  | .instr _ => true
  | _ => false

/-- The number of instructions among calls. -/
def issued (uses : List Use) : Nat := uses.countP counted

/-- The names of the labels that calls make. -/
def made (uses : List Use) : List RawText :=
  uses.filterMap fun
    | .newLabel name => some name
    | _ => none

/-- A program with labels of some names made in it. -/
def withLabels (b : Backend σ) (s : σ) (names : List RawText) : σ :=
  names.foldl (fun s name => (b.newLabel name s).2) s

theorem issued_cons (u : Use) (uses : List Use) : issued (u :: uses) = issued [u] + issued uses := by
  rw [issued, issued, issued, ← List.countP_append, List.singleton_append]

theorem made_cons (u : Use) (uses : List Use) : made (u :: uses) = made [u] ++ made uses := by
  rw [made, made, made, ← List.filterMap_append, List.singleton_append]

theorem runAll_append (a : Assembler σ) (us vs : List Use) :
    runAll b a (us ++ vs) = runAll b (runAll b a us) vs := List.foldl_append

/-- A call that ends well, on an assembler without an error. -/
theorem run_smooth {a : Assembler σ} {u : Use} (clear : a.error? = none)
    (ended : (u.act b a.state).1 = .ok ()) :
    run b a u = ⟨(u.act b a.state).2, a.count + issued [u], none⟩ := by
  cases u with
  | newLabel name =>
    show (⟨_, a.count, a.error?⟩ : Assembler σ) = _
    rw [clear]
    rfl
  | instr i => exact congrArg Prod.snd (Assembler.issue_performed clear ended)
  | code =>
    simp only [run, Assembler.code, clear]
    rfl

theorem runAll_smooth {a : Assembler σ} {uses : List Use} (clear : a.error? = none)
    (smooth : Smooth b a.state uses) :
    runAll b a uses = ⟨reached b a.state uses, a.count + issued uses, none⟩ := by
  induction uses generalizing a with
  | nil =>
    rcases a with ⟨s, n, e⟩
    cases clear
    rfl
  | cons u uses ih =>
    have first := run_smooth clear smooth.1
    have rest := ih (a := run b a u) (by rw [first]) (by rw [first]; exact smooth.2)
    show runAll b (run b a u) uses = _
    rw [rest, first, issued_cons u uses, Nat.add_assoc]
    rfl

/-- A call on an assembler with an error. -/
theorem run_kept {a : Assembler σ} {e : Error} (kept : a.error? = some e) (u : Use) :
    run b a u = ⟨withLabels b a.state (made [u]), a.count + issued [u], some e⟩ := by
  cases u with
  | newLabel name =>
    show (⟨_, a.count, a.error?⟩ : Assembler σ) = _
    rw [kept]
    rfl
  | instr i =>
    show (a.issue b i).2 = _
    rw [Assembler.issue_kept kept, kept]
    rfl
  | code =>
    simp only [run, Assembler.code, kept]
    rcases a with ⟨s, n, e'⟩
    cases kept
    rfl

theorem runAll_kept {a : Assembler σ} {e : Error} (kept : a.error? = some e) (uses : List Use) :
    runAll b a uses = ⟨withLabels b a.state (made uses), a.count + issued uses, some e⟩ := by
  induction uses generalizing a with
  | nil =>
    rcases a with ⟨s, n, e'⟩
    cases kept
    rfl
  | cons u uses ih =>
    have first := run_kept (b := b) kept u
    have rest := ih (a := run b a u) (by rw [first])
    show runAll b (run b a u) uses = _
    rw [rest, first, issued_cons u uses, made_cons u uses, Nat.add_assoc, withLabels, withLabels, withLabels,
      List.foldl_append]

/-- What making a label leaves alone, making labels leaves alone. -/
theorem view_withLabels {α : Type} {view : σ → α}
    (apart : ∀ name s, view (b.newLabel name s).2 = view s) (s : σ) (names : List RawText) :
    view (withLabels b s names) = view s := by
  induction names generalizing s with
  | nil => rfl
  | cons name names ih => exact (ih (b.newLabel name s).2).trans (apart name s)

end Use

/-! ## Runs -/

/-- What the calls on a buffer change apart from making labels: the code, the places of labels and the
references. -/
def Buffer.content (s : Buffer) : Bytes × (Nat → Option Nat) × Array Fixup :=
  (s.code, Call.place s, s.fixups)

theorem Buffer.content_newLabel (s : Buffer) (name : RawText) :
    (s.newLabel name).2.content = s.content := by
  have places : Call.place (s.newLabel name).2 = Call.place s :=
    funext fun id => Call.place_newLabel ..
  exact congrArg (fun p => (s.code, p, s.fixups)) places

/-- The first error of a run is kept. Let every call before an instruction end well, and let the
instruction fail: then, whatever follows, its error is kept behind its number, every instruction is
counted, what making a label leaves alone is as it was when the instruction failed, and the code is
refused with the same error. Where every call ends well, no error is kept. -/
theorem first_error_sticks (b : Backend σ) (s : σ) (uses : List Use) (smooth : Use.Smooth b s uses) :
    (∀ (i : Instr LabelRef) (x : Error) (rest : List Use),
      (b.perform i (Use.reached b s uses)).1 = .error (.error x) →
      let number := Use.issued uses + 1
      let kept := x.within (.instruction number i.name)
      let failed := Use.runAll b (.start s) (uses ++ [.instr i])
      let last := Use.runAll b (.start s) (uses ++ .instr i :: rest)
      last.error? = some kept ∧
      kept.message = "#" ++ toString number ++ " " ++ i.name ++ ": " ++ x.message ∧
      last.count = number + Use.issued rest ∧
      failed.state = (b.perform i (Use.reached b s uses)).2 ∧
      last.state = Use.withLabels b failed.state (Use.made rest) ∧
      (∀ {α : Type} (view : σ → α), (∀ name t, view (b.newLabel name t).2 = view t) →
        view last.state = view failed.state) ∧
      last.code b = (.error (.error kept), last)) ∧
    let last := Use.runAll b (.start s) uses
    last.error? = none ∧ last.count = Use.issued uses ∧ last.state = Use.reached b s uses := by
  have before : Use.runAll b (.start s) uses = ⟨Use.reached b s uses, Use.issued uses, none⟩ := by
    have run := Use.runAll_smooth (a := .start s) rfl smooth
    rwa [show (Assembler.start s).count + Use.issued uses = Use.issued uses from Nat.zero_add _] at run
  refine ⟨fun i x rest ended => ?_, ?_⟩
  · have failed : Use.runAll b (.start s) (uses ++ [.instr i])
        = ⟨(b.perform i (Use.reached b s uses)).2, Use.issued uses + 1,
          some (x.within (.instruction (Use.issued uses + 1) i.name))⟩ := by
      rw [Use.runAll_append, before]
      exact congrArg Prod.snd (Assembler.issue_failed rfl ended)
    have last := Use.runAll_kept (b := b) (congrArg Assembler.error? failed) rest
    rw [← Use.runAll_append, List.append_assoc, List.singleton_append] at last
    dsimp only
    rw [last, failed]
    refine ⟨rfl, Error.message_within x _, rfl, rfl, rfl, fun view apart => ?_, rfl⟩
    exact Use.view_withLabels apart _ _
  · rw [before]
    exact ⟨rfl, rfl, rfl⟩

/-- A label is bound and a sum is encoded; a move has no form with three operands. The label made, the
jump and the code asked for behind it change nothing of the code, the places and the references. -/
theorem first_error_sticks_move :
    let b := X86.backend (.x86 Level.sse2 "sse2" "128" 16 1)
    let top : Label := ⟨.ofString "top", 0⟩
    let sum : Instr LabelRef := .ofOp .add Elem.u8 ⟨.vector, 1⟩ ⟨.vector, 1⟩ (.reg ⟨.vector, 2⟩)
    let move : Instr LabelRef := .ofOp .mov Elem.u8 ⟨.vector, 1⟩ ⟨.vector, 1⟩ (.reg ⟨.vector, 2⟩)
    let last := Use.runAll b (.start .empty) [.newLabel top.name, .instr (.bind top), .instr sum,
      .instr move, .newLabel (.ofString "on"), .instr (.jump top), .code]
    last.error?.map Error.message = some ("#3 mov: " ++
      (Error.ofCause (.mnemonic (.threeOperands .mov))).message) ∧
    last.count = 4 ∧ last.state.content = (⟨#[0x66, 0x0F, 0xFC, 0xCA], #[some 0], #[]⟩ : Buffer).content ∧
    (last.code b).1 = .error (.error ⟨[.instruction 3 "mov"], .mnemonic (.threeOperands .mov)⟩) := by
  intro b top sum move last
  obtain ⟨sticks, -⟩ := first_error_sticks b .empty
    [.newLabel top.name, .instr (.bind top), .instr sum] ⟨rfl, rfl, rfl, trivial⟩
  obtain ⟨kept, text, count, stopped, -, views, code⟩ :=
    sticks move (.ofCause (.mnemonic (.threeOperands .mov)))
      [.newLabel (.ofString "on"), .instr (.jump top), .code] rfl
  refine ⟨?_, count, ?_, ?_⟩
  · exact (congrArg (Option.map Error.message) kept).trans (congrArg some (text.trans (by decide +kernel)))
  · refine (views Buffer.content fun name s => s.content_newLabel name).trans (congrArg _ ?_)
    exact stopped.trans (by decide +kernel)
  · exact congrArg Prod.fst code

end LaneAsm
