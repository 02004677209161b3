import LaneAsm.Catalog.BuiltIn
import LaneAsm.Encoder
import LaneAsm.Proofs.Listing.Mnemonic
import LaneAsm.Proofs.Msa.Selected
import LaneAsm.Proofs.X86.Selected
import Mathlib.Control.Monad.Basic

/-!
Where listings trap. The number of operands of a line follows from its shape, and the operands that
are looked at from its operation. Mnemonics whose operation looks further than their shape reaches
(`Mnemonic.overreaches`) are read like any other, and nothing but such a line traps: a compare and
jump when it is read, a move when it is assembled.
-/
namespace LaneAsm

/-- A computation does not end in a trap. -/
def Untrapped {α : Type} (x : Except Fault α) : Prop := x ≠ .error .trap

namespace Untrapped

variable {α β : Type}

theorem ok (a : α) : Untrapped (.ok a) := nofun

theorem fail (c : Cause) : Untrapped (Fault.fail c : Except Fault α) := nofun

theorem bind {x : Except Fault α} {f : α → Except Fault β} (first : Untrapped x)
    (rest : ∀ a, x = .ok a → Untrapped (f a)) : Untrapped (x >>= f) := by
  cases x with
  | ok a => exact rest a rfl
  | error e =>
    intro trapped
    obtain rfl := Except.error.inj trapped
    exact first rfl

end Untrapped

/-- A place in a list is its head or lies behind it. -/
theorem exists_split_cons {α : Type} {P : List α → α → Prop} {x : α} {xs : List α} :
    (∃ before y after, x :: xs = before ++ y :: after ∧ P before y) ↔
      P [] x ∨ ∃ before y after, xs = before ++ y :: after ∧ P (x :: before) y := by
  constructor
  · rintro ⟨before, y, after, split, holds⟩
    cases before with
    | nil => cases split; exact .inl holds
    | cons first before => cases split; exact .inr ⟨before, y, after, rfl, holds⟩
  · rintro (holds | ⟨before, y, after, rfl, holds⟩)
    · exact ⟨[], x, xs, rfl, holds⟩
    · exact ⟨x :: before, y, after, rfl, holds⟩

theorem Shape.arity_pos (s : Shape) : 0 < s.arity := by cases s <;> decide

namespace Mnemonic

/-- Whether an instruction looks at more operands than its shape has. -/
def overreaches (m : Mnemonic) : Bool :=
  match m.verb with
  | .cmj => m.shape.arity == 1
  | .op .mov => if m.isBase then m.shape.arity == 1 else m.shape == .lb
  | .op .mmv => !m.isBase && m.shape.arity == 1
  | _ => false

/-- The operands that a line keeps, besides a condition and a target. -/
def operands (m : Mnemonic) : Nat :=
  match m.verb with
  | .jmp => 0
  | .op .mkj => 1
  | .cmj => 2
  | .op _ => m.shape.arity

theorem operands_of_op {m : Mnemonic} {o : Op} (verb : m.verb = .op o) (other : o ≠ .mkj) :
    m.operands = m.shape.arity := by
  rw [operands, verb]
  cases o <;> first | rfl | exact absurd rfl other

end Mnemonic

namespace Line

/-- What is known of a line that was read: it has the operands of its mnemonic, and a single one is
a register unless its shape has more. -/
structure Read (l : Line) : Prop where
  consistent : l.mnemonic.consistent = true
  length : l.args.length = l.mnemonic.operands
  jump : l.mnemonic.verb = .cmj → l.mnemonic.shape.arity ≠ 1
  register : l.mnemonic.shape.arity = 1 → ∀ o ∈ l.args, ∃ r, o = .reg r

variable {l : Line}

theorem arg_eq_ok {i : Nat} (inside : i < l.args.length) : l.arg i = .ok l.args[i] := by
  rw [arg, List.getElem?_eq_getElem inside]

theorem arg_inside {i : Nat} (inside : i < l.args.length) : Untrapped (l.arg i) := by
  rw [arg_eq_ok inside]
  exact .ok _

theorem arg_outside {i : Nat} (outside : l.args.length ≤ i) : l.arg i = .error .trap := by
  rw [arg, List.getElem?_eq_none outside]

theorem regArg_inside {i : Nat} (inside : i < l.args.length) : Untrapped (l.regArg i) := by
  refine (arg_inside inside).bind fun o _ => ?_
  cases o with
  | reg r => exact nofun
  | mem m => exact nofun
  | imm n => exact nofun

section
variable (known : l.Read)
include known

/-- Only base registers are jumped on. -/
theorem Read.operation_of_vector (vector : l.mnemonic.isBase = false) :
    ∃ o, l.mnemonic.verb = .op o := by
  have consistent := known.consistent
  simp only [Mnemonic.consistent, vector, Bool.or_false, Bool.and_eq_true] at consistent
  cases verb : l.mnemonic.verb with
  | op o => exact ⟨o, rfl⟩
  | jmp => simp [verb, Verb.isJump] at consistent
  | cmj => simp [verb, Verb.isJump] at consistent

theorem Read.length_of_op {o : Op} (verb : l.mnemonic.verb = .op o) (other : o ≠ .mkj) :
    l.args.length = l.mnemonic.shape.arity :=
  known.length.trans (Mnemonic.operands_of_op verb other)

theorem Read.vectorInstr_untrapped (vector : l.mnemonic.isBase = false)
    (short : l.mnemonic.overreaches = false) (baseBits : Nat) :
    Untrapped (l.vectorInstr baseBits) := by
  obtain ⟨o, verb⟩ := known.operation_of_vector vector
  have pos := l.mnemonic.shape.arity_pos
  have length := known.length_of_op verb
  simp only [Mnemonic.overreaches, verb, vector] at short
  unfold vectorInstr
  simp only [verb, Verb.operation]
  split
  · split
    · exact .fail _
    · next fits =>
      have two : 2 ≤ l.mnemonic.shape.arity := by
        cases shape : l.mnemonic.shape <;> simp_all [Shape.arity, Shape.three]
      rw [← length nofun] at two
      exact (arg_inside (by omega)).bind fun _ _ => (arg_inside two).bind fun _ _ => .ok _
  · have one : l.args.length = 1 := by rw [known.length, Mnemonic.operands, verb]
    exact (regArg_inside (by omega)).bind fun _ _ => .ok _
  · have two : 2 ≤ l.mnemonic.shape.arity := by
      simp only [Bool.not_false, Bool.true_and, beq_eq_false_iff_ne] at short
      omega
    rw [← length nofun] at two
    refine (regArg_inside (by omega)).bind fun _ _ => ?_
    split
    · exact .fail _
    · exact (arg_inside two).bind fun _ _ => .ok _
  · rw [← length nofun] at pos
    refine (regArg_inside pos).bind fun _ _ => ?_
    split
    · next two => exact (regArg_inside two).bind fun _ _ => .ok _
    · exact .ok _
  · next other _ _ =>
    rw [← length other] at pos
    split
    · exact .fail _
    · next fits =>
      refine (regArg_inside pos).bind fun _ _ => ?_
      split
      · next three =>
        have many : l.args.length = 3 := by
          rw [length other]
          cases shape : l.mnemonic.shape <;> simp_all [Shape.arity, Shape.three]
        refine (regArg_inside (by omega)).bind fun _ _ => ?_
        exact (arg_inside (by omega)).bind fun _ _ => .ok _
      · have two : 2 ≤ l.mnemonic.shape.arity := by
          cases shape : l.mnemonic.shape <;> simp_all [Shape.arity, Shape.three]
        rw [← length other] at two
        exact (arg_inside two).bind fun _ _ => .ok _

theorem Read.baseInstr_untrapped (base : l.mnemonic.isBase = true)
    (short : l.mnemonic.overreaches = false) : Untrapped l.baseInstr := by
  have length := known.length
  unfold baseInstr
  dsimp only
  split
  · exact .ok _
  · next verb =>
    simp only [Mnemonic.operands, verb] at length
    refine (regArg_inside (by omega)).bind fun _ _ => ?_
    exact (arg_inside (by omega)).bind fun _ _ => .ok _
  · next verb =>
    have pos := l.mnemonic.shape.arity_pos
    simp only [Mnemonic.overreaches, verb, base, if_true, beq_eq_false_iff_ne] at short
    simp only [Mnemonic.operands, verb] at length
    refine (arg_inside (by omega)).bind fun _ _ => ?_
    exact (arg_inside (by omega)).bind fun _ _ => .ok _
  · next o other verb =>
    split
    · exact .fail _
    · next fits =>
      -- The shapes let through have two operands, and only a jump on a mask keeps one of them.
      have two : l.mnemonic.shape.arity = 2 := by
        cases shape : l.mnemonic.shape <;> simp_all [Shape.arity]
      have pos : 0 < l.args.length := by
        rw [length]
        cases o <;> simp [Mnemonic.operands, verb, two]
      refine (regArg_inside pos).bind fun _ _ => ?_
      have both (notMask : o ≠ .mkj) : 1 < l.args.length := by
        rw [known.length_of_op verb notMask, two]
        decide
      split
      case h_8 => exact .fail _
      all_goals
        refine (arg_inside (both nofun)).bind fun operand _ => ?_
        cases operand <;> exact nofun

/-- The operand that is not there is looked at, whatever the one that is there. -/
theorem Read.instr_trap (excess : l.mnemonic.overreaches = true) (baseBits : Nat) :
    l.instr baseBits = .error .trap := by
  unfold Mnemonic.overreaches at excess
  split at excess
  · next verb => exact absurd (by simpa using excess) (known.jump verb)
  · next verb =>
    have one : l.args.length = 1 := by
      rw [known.length_of_op verb nofun]
      cases shape : l.mnemonic.shape <;> simp_all [Shape.arity]
    by_cases base : l.mnemonic.isBase = true
    · rw [instr, if_pos base, baseInstr, verb]
      simp only [arg_eq_ok (l := l) (i := 0) (by omega), arg_outside (l := l) (i := 1) (by omega)]
      rfl
    · rw [if_neg base] at excess
      rw [instr, if_neg base, vectorInstr, verb, eq_of_beq excess]
      simp only [Verb.operation, arg_eq_ok (l := l) (i := 0) (by omega),
        arg_outside (l := l) (i := 1) (by omega)]
      rfl
  · next verb =>
    rw [Bool.and_eq_true, Bool.not_eq_true', beq_iff_eq] at excess
    have one := (known.length_of_op verb nofun).trans excess.2
    have two : l.mnemonic.shape.three = false := by
      cases shape : l.mnemonic.shape <;> simp_all [Shape.arity, Shape.three]
    obtain ⟨r, register⟩ := known.register excess.2 l.args[0] (List.getElem_mem _)
    rw [instr, if_neg (by simp [excess.1]), vectorInstr, verb]
    simp only [Verb.operation, regArg, arg_eq_ok (l := l) (i := 0) (by omega), register, two,
      arg_outside (l := l) (i := 1) (by omega)]
    rfl
  · cases excess

/-- A line traps exactly when its mnemonic looks further than its shape reaches. -/
theorem Read.instr_trap_iff (baseBits : Nat) :
    l.instr baseBits = .error .trap ↔ l.mnemonic.overreaches = true := by
  refine ⟨fun trapped => ?_, fun excess => known.instr_trap excess baseBits⟩
  refine Decidable.byContradiction fun short => ?_
  rw [Bool.not_eq_true] at short
  by_cases base : l.mnemonic.isBase = true
  · rw [instr, if_pos base] at trapped
    exact known.baseInstr_untrapped base short trapped
  · rw [instr, if_neg base] at trapped
    exact known.vectorInstr_untrapped (Bool.not_eq_true _ ▸ base) short baseBits trapped

end

end Line

namespace Listing

open Text

theorem length_of_parseArgs {shape : Shape} {n i : Nat} {texts : List RawText}
    {args : List Operand} (read : parseArgs shape n i texts = .ok args) :
    args.length = texts.length := by
  induction texts generalizing i args with
  | nil => rw [← Except.ok.inj read]; rfl
  | cons text texts ih =>
    obtain ⟨first, -, read⟩ := bind_eq_ok.1 read
    obtain ⟨rest, restRead, read⟩ := bind_eq_ok.1 read
    rw [← Except.ok.inj read, List.length_cons, List.length_cons, ih restRead]

theorem register_of_parseArgs {shape : Shape} {n i : Nat} {texts : List RawText}
    {args : List Operand} (read : parseArgs shape n i texts = .ok args) (one : shape.arity = 1) :
    ∀ o ∈ args, ∃ r, o = .reg r := by
  induction texts generalizing i args with
  | nil => rw [← Except.ok.inj read]; exact nofun
  | cons text texts ih =>
    obtain ⟨first, firstRead, read⟩ := bind_eq_ok.1 read
    obtain ⟨rest, restRead, read⟩ := bind_eq_ok.1 read
    rw [← Except.ok.inj read]
    refine List.forall_mem_cons.2 ⟨?_, ih restRead⟩
    have plain : parseArg shape i n text = (parseReg text).map .reg := by
      cases shape <;> first | rfl | cases one
    rw [plain] at firstRead
    cases parsed : parseReg text with
    | error e => rw [parsed] at firstRead; cases firstRead
    | ok r => rw [parsed] at firstRead; exact ⟨r, (Except.ok.inj firstRead).symm⟩

/-- A compare and jump on a single operand, cut short after its condition. -/
def CutShort (text : RawText) : Prop :=
  let (name, rest) := (cut? (.char ' ') text).getD (text, [])
  ∃ m x y c cond, Mnemonic.parse (RawText.trim name).chars = .ok m ∧
    m.verb = .cmj ∧ m.overreaches = true ∧
    splitArgs (RawText.trim rest) = [x, y, c] ∧ Cond.ofText? c.text = some cond

/-- How reading an instruction may end: with a line that is as it should be, with an error, or in a
trap where the text is cut short. -/
def Outcome (text : RawText) : Except Fault Line → Prop
  | .ok l => l.Read
  | .error .trap => CutShort text
  | .error (.error _) => True

theorem Outcome.lift {α : Type} {text : RawText} {x : Except Error α} {f : α → Except Fault Line}
    (rest : ∀ a, x = .ok a → Outcome text (f a)) : Outcome text (Fault.lift x >>= f) := by
  cases x with
  | ok a => exact rest a rfl
  | error e => exact trivial

theorem parseInstr_outcome (text : RawText) : Outcome text (parseInstr text) := by
  unfold parseInstr
  generalize parts : (cut? (.char ' ') text).getD (text, []) = p
  obtain ⟨name, rest⟩ := p
  dsimp only
  refine .lift fun m parsed => ?_
  obtain ⟨-, consistent⟩ := Mnemonic.accepted parsed
  generalize texts : splitArgs (RawText.trim rest) = args
  by_cases count : args.length = m.shape.arity + if m.verb == .cmj || m.verb == .op .mkj then 2 else 0
  · rw [if_neg (not_not_intro count)]
    split
    · next verb =>
      exact ⟨consistent, by simp [Mnemonic.operands, verb], by simp [verb], nofun⟩
    · next verb =>
      have many : args.length = m.shape.arity + 2 := by simpa [verb] using count
      have taken : (args.take 1).length = 1 := by
        rw [List.length_take]
        omega
      have kept (mask : MaskCond) : Outcome text (Fault.lift (parseArgs m.shape 1 0 (args.take 1))
          >>= fun args' => pure ⟨0, [], m, args', mask, .eq, args[2]?.getD []⟩) := by
        refine .lift fun args' read => ⟨consistent, ?_, by simp [verb], register_of_parseArgs read⟩
        simp [Mnemonic.operands, verb, length_of_parseArgs read, taken]
      split
      · exact kept .none
      · exact kept .full
      · exact trivial
    · next verb =>
      have many : args.length = m.shape.arity + 2 := by simpa [verb] using count
      have pos := m.shape.arity_pos
      split
      · next cond known =>
        split
        · next target last =>
          have four := (List.getElem?_eq_some_iff.1 last).1
          refine .lift fun args' read => ⟨consistent, ?_, fun _ => ?_, register_of_parseArgs read⟩
          · simp only [Mnemonic.operands, verb, length_of_parseArgs read, List.length_take]
            omega
          · show m.shape.arity ≠ 1
            omega
        · next missing =>
          have short : args.length ≤ 3 := by
            refine Decidable.byContradiction fun long => ?_
            exact missing _ (List.getElem?_eq_getElem (by omega))
          have one : m.shape.arity = 1 := by omega
          match args, many, short, known with
          | [x, y, c], _, _, known =>
            show CutShort text
            unfold CutShort
            rw [parts]
            exact ⟨m, x, y, c, cond, parsed, verb, by simp [Mnemonic.overreaches, verb, one],
              texts, known⟩
      · exact trivial
    · next o other verb =>
      have notMask : o ≠ .mkj := other
      have many : args.length = m.shape.arity := by simpa [verb, notMask] using count
      refine .lift fun args' read => ⟨consistent, ?_, by simp [verb], register_of_parseArgs read⟩
      exact (length_of_parseArgs read).trans (many.trans (m.operands_of_op verb notMask).symm)
  · rw [if_pos count]
    exact trivial

theorem read_of_parseInstr {text : RawText} {l : Line} (read : parseInstr text = .ok l) : l.Read := by
  have outcome := parseInstr_outcome text
  rwa [read] at outcome

theorem parseInstr_trap_iff (text : RawText) : parseInstr text = .error .trap ↔ CutShort text := by
  constructor
  · intro trapped
    have outcome := parseInstr_outcome text
    rwa [trapped] at outcome
  · intro cut
    unfold CutShort at cut
    unfold parseInstr
    generalize (cut? (.char ' ') text).getD (text, []) = p at cut ⊢
    obtain ⟨m, x, y, c, cond, parsed, verb, excess, texts, known⟩ := cut
    have one : m.shape.arity = 1 := by simpa [Mnemonic.overreaches, verb] using excess
    simp [parsed, texts, verb, one, known, Fault.lift_ok, bind, Except.bind, throw,
      throwThe, MonadExceptOf.throw]

theorem not_cutShort_nil : ¬ CutShort [] := by
  rintro ⟨m, x, y, c, cond, parsed, -⟩
  cases parsed

/-- A line with an instruction on it that is cut short. -/
def Tripping (l : RawText) : Prop :=
  l.byteLength < lineLimit ∧ ∃ labels text,
    takeLabels (clean (dropFinal (.char '\r') l)) = .ok (labels, text) ∧ CutShort text

/-- What reading a line does before the lines after it are read: it fails, it traps, or it keeps
what it has read. -/
theorem parseLines_cons (n : Nat) (pending : List RawText) (l : RawText) :
    (¬ Tripping l ∧ ∀ ls, ∃ e, parseLines n pending (l :: ls) = .error (.error e)) ∨
    (Tripping l ∧ ∀ ls, parseLines n pending (l :: ls) = .error .trap) ∨
    (¬ Tripping l ∧ ∃ pending' kept, (∀ line ∈ kept, line.Read) ∧ ∀ ls,
      parseLines n pending (l :: ls)
        = (parseLines (n + 1) pending' ls).map fun r => (kept ++ r.1, r.2)) := by
  by_cases long : lineLimit ≤ l.byteLength
  · refine .inl ⟨fun trips => absurd trips.1 (by omega), fun ls => ?_⟩
    rw [parseLines, if_pos long]
    exact ⟨_, rfl⟩
  · cases taken : takeLabels (clean (dropFinal (.char '\r') l)) with
    | error e =>
      refine .inl ⟨?_, fun ls => ⟨e.within (.line n), ?_⟩⟩
      · rintro ⟨_, labels, text, read, _⟩
        rw [taken] at read
        cases read
      · rw [parseLines, if_neg long, taken]
        rfl
    | ok result =>
      obtain ⟨labels, text⟩ := result
      have trips : Tripping l ↔ CutShort text := by
        constructor
        · rintro ⟨-, _, _, read, cut⟩
          rw [taken] at read
          cases read
          exact cut
        · exact fun cut => ⟨by omega, labels, text, taken, cut⟩
      have step := parseLines_of_takeLabels long taken n pending
      rw [trips]
      by_cases blank : text = []
      · subst blank
        refine .inr (.inr ⟨not_cutShort_nil, pending ++ labels, [],
          fun _ member => absurd member List.not_mem_nil, fun ls => ?_⟩)
        rw [step, if_pos rfl]
        cases parseLines (n + 1) (pending ++ labels) ls <;> rfl
      · rw [← parseInstr_trap_iff]
        cases parsed : parseInstr text with
        | ok line =>
          have read := read_of_parseInstr parsed
          refine .inr (.inr ⟨by simp, [],
            [{ line with number := n, labels := pending ++ labels }],
            List.forall_mem_singleton.2 ⟨read.1, read.2, read.3, read.4⟩, fun ls => ?_⟩)
          rw [step, if_neg blank, parsed]
          rfl
        | error f =>
          cases f with
          | error e =>
            refine .inl ⟨by simp, fun ls => ⟨e.within (.line n), ?_⟩⟩
            rw [step, if_neg blank, parsed]
            rfl
          | trap =>
            refine .inr (.inl ⟨rfl, fun ls => ?_⟩)
            rw [step, if_neg blank, parsed]
            rfl

theorem read_of_parseLines {n : Nat} {pending tail : List RawText} {ls : List RawText}
    {lines : List Line} (read : parseLines n pending ls = .ok (lines, tail)) :
    ∀ l ∈ lines, l.Read := by
  induction ls generalizing n pending lines with
  | nil =>
    rw [parseLines] at read
    cases read
    exact fun _ member => absurd member List.not_mem_nil
  | cons l ls ih =>
    rcases parseLines_cons n pending l with ⟨-, fails⟩ | ⟨-, traps⟩ | ⟨-, pending', kept, known, step⟩
    · obtain ⟨e, failed⟩ := fails ls
      rw [failed] at read
      cases read
    · rw [traps] at read
      cases read
    · rw [step] at read
      cases rest : parseLines (n + 1) pending' ls with
      | error f => rw [rest] at read; cases read
      | ok r =>
        rw [rest] at read
        cases read
        exact List.forall_mem_append.2 ⟨known, ih rest⟩

/-- Reading traps on the first line that is not read, and only if that line is cut short. -/
theorem parseLines_trap_iff (n : Nat) (pending : List RawText) (ls : List RawText) :
    parseLines n pending ls = .error .trap ↔ ∃ before l after, ls = before ++ l :: after ∧
      (∃ r, parseLines n pending before = .ok r) ∧ Tripping l := by
  induction ls generalizing n pending with
  | nil => simp [parseLines]
  | cons l ls ih =>
    rw [exists_split_cons]
    rcases parseLines_cons n pending l with ⟨calm, fails⟩ | ⟨trips, traps⟩ | ⟨calm, pending', kept, -, step⟩
    · obtain ⟨e, failed⟩ := fails ls
      rw [failed]
      refine ⟨fun trapped => (by cases trapped), ?_⟩
      rintro (⟨-, trips⟩ | ⟨before, l', after, -, ⟨r, read⟩, -⟩)
      · exact absurd trips calm
      · obtain ⟨e, failed⟩ := fails before
        rw [failed] at read
        cases read
    · exact ⟨fun _ => .inl ⟨⟨_, rfl⟩, trips⟩, fun _ => traps ls⟩
    · have traps : parseLines n pending (l :: ls) = .error .trap
          ↔ parseLines (n + 1) pending' ls = .error .trap := by
        rw [step]
        cases parseLines (n + 1) pending' ls with
        | ok r => simp [Except.map]
        | error f => simp [Except.map]
      have reads (before : List RawText) : (∃ r, parseLines n pending (l :: before) = .ok r)
          ↔ ∃ r, parseLines (n + 1) pending' before = .ok r := by
        rw [step]
        cases parseLines (n + 1) pending' before with
        | ok r => exact ⟨fun _ => ⟨r, rfl⟩, fun _ => ⟨_, rfl⟩⟩
        | error f => simp [Except.map]
      simp only [traps, ih, calm, and_false, false_or, reads]

end Listing

/-! ## Assembly -/

theorem Instr.label?_mapLabel {L M : Type} (i : Instr L) (f : L → M) :
    (i.mapLabel f).label? = i.label?.map f := by
  cases i <;> rfl

namespace Assembly

variable {σ : Type} {b : Backend σ}

theorem issue_ok (steady : b.Steady) (a : Assembly σ) (i : Instr RawText) :
    (a.issue b i).1 = .ok () := by
  refine Assembler.issue_ok steady _ ?_
  rw [Instr.label?_mapLabel]
  cases i.label? with
  | none => exact nofun
  | some name => exact nofun

theorem bindAll_ok (steady : b.Steady) (a : Assembly σ) (names : List RawText) :
    (a.bindAll b names).1 = .ok () := by
  induction names generalizing a with
  | nil => rfl
  | cons name names ih =>
    have first := a.issue_ok steady (.bind name)
    rw [bindAll]
    split
    · exact ih _
    · next failed =>
      rw [failed] at first
      cases first

theorem status_untrapped (a : Assembly σ) : Untrapped a.status := by
  unfold status
  split
  · exact nofun
  · exact .ok ()

theorem line_trap_iff (steady : b.Steady) (a : Assembly σ) {l : Line} (known : l.Read) :
    (a.line b l).1 = .error .trap ↔ l.mnemonic.overreaches = true := by
  rw [← known.instr_trap_iff b.config.baseBits, line]
  have bound := a.bindAll_ok steady l.labels
  split
  · next failed =>
    rw [failed] at bound
    cases bound
  · next a' _ =>
    split
    · next failed => rw [failed, Except.error.injEq, Except.error.injEq]
    · next i formed =>
      have issued := a'.issue_ok steady i
      rw [formed]
      split
      · next failed =>
        rw [failed] at issued
        cases issued
      · next a'' _ => exact ⟨fun trapped => absurd trapped a''.status_untrapped, nofun⟩

/-- Assembling traps on the first line that is not issued, and only if that line overreaches. -/
theorem lines_trap_iff (steady : b.Steady) (a : Assembly σ) {ls : List Line}
    (known : ∀ l ∈ ls, l.Read) :
    (lines b a ls).1 = .error .trap ↔ ∃ before l after, ls = before ++ l :: after ∧
      (lines b a before).1 = .ok () ∧ l.mnemonic.overreaches = true := by
  induction ls generalizing a with
  | nil => simp [lines]
  | cons l ls ih =>
    have traps := a.line_trap_iff steady (known l List.mem_cons_self)
    rw [exists_split_cons]
    rcases step : a.line b l with ⟨outcome, a'⟩
    simp only [step] at traps
    cases outcome with
    | ok _ =>
      have rest (before : List Line) : lines b a (l :: before) = lines b a' before := by
        rw [lines, step]
      have calm : ¬ l.mnemonic.overreaches = true := fun excess => nomatch traps.2 excess
      simp only [rest, calm, Bool.false_eq_true, and_false, false_or]
      exact ih a' fun l' member => known l' (List.mem_cons_of_mem l member)
    | error f =>
      have rest (before : List Line) :
          lines b a (l :: before) = (.error (f.within (.line l.number)), a') := by
        rw [lines, step]
      simp only [rest, ← traps]
      cases f with
      | trap => simp [Fault.within, lines]
      | error e => simp [Fault.within]

end Assembly

theorem Listing.assemble_trap_iff {σ : Type} {b : Backend σ} (steady : b.Steady) (a : Assembler σ)
    (listing : Listing) : (listing.assemble b a).1 = .error .trap ↔
      (Assembly.lines b ⟨a, []⟩ listing.lines).1 = .error .trap := by
  unfold Listing.assemble
  split
  · next failed => rw [failed]
  · next a' issued =>
    have bound := a'.bindAll_ok steady listing.tail
    rw [issued]
    split
    · next failed =>
      rw [failed] at bound
      cases bound
    · next a'' _ => exact ⟨fun trapped => absurd trapped a''.status_untrapped, nofun⟩

/-- The backends that listings are assembled on: the encoders of targets and the reference machine. -/
inductive Backend.Offered : {σ : Type} → Backend σ → Prop
  | encoder {cfg : Config} {b : Backend Buffer} (found : encoder? cfg = .ok b) : Offered b
  | reference (cfg : Config) (limits : Limits) : Offered (Program.backend cfg limits)

theorem Backend.Offered.steady {σ : Type} {b : Backend σ} (offered : b.Offered) : b.Steady := by
  cases offered with
  | @encoder cfg b found =>
    unfold encoder? at found
    split at found
    · exact X86.eq_of_backend? found ▸ X86.steady cfg
    · exact Msa.eq_of_backend? found ▸ Msa.steady cfg
    · exact Msa.eq_of_backend? found ▸ Msa.steady cfg
    · cases found
  | reference cfg limits => exact Program.steady cfg limits

theorem Listing.parse_trap_iff (src : RawText) :
    parse src = .error .trap ↔ parseLines 1 [] (Text.lines (.char '\n') src) = .error .trap := by
  rw [parse]
  cases parseLines 1 [] (Text.lines (.char '\n') src) with
  | ok r => exact ⟨nofun, nofun⟩
  | error f => simp [bind, Except.bind]

theorem Listing.read_of_parse {src : RawText} {listing : Listing} (read : parse src = .ok listing) :
    ∀ l ∈ listing.lines, l.Read := by
  obtain ⟨⟨lines, tail⟩, linesRead, read⟩ := bind_eq_ok.1 read
  cases read
  exact read_of_parseLines linesRead

/-- Reading traps on a compare and jump of a single operand that is the first line not read, and
assembling on the first line not issued whose operation looks further than its shape reaches.
Nothing else traps. -/
theorem listing_trap_iff {σ : Type} {b : Backend σ} (offered : b.Offered) (a : Assembler σ)
    (src : RawText) :
    (Listing.parse src = .error .trap ↔
      ∃ before l after, Text.lines (.char '\n') src = before ++ l :: after ∧
        (∃ r, Listing.parseLines 1 [] before = .ok r) ∧ Listing.Tripping l) ∧
    ∀ listing, Listing.parse src = .ok listing →
      ((listing.assemble b a).1 = .error .trap ↔
        ∃ before l after, listing.lines = before ++ l :: after ∧
          (Assembly.lines b ⟨a, []⟩ before).1 = .ok () ∧ l.mnemonic.overreaches = true) := by
  constructor
  · rw [Listing.parse_trap_iff, Listing.parseLines_trap_iff]
  · intro listing read
    rw [Listing.assemble_trap_iff offered.steady]
    exact Assembly.lines_trap_iff offered.steady _ (Listing.read_of_parse read)

/-- A move of a single register, as a line. -/
def lonelyMove : Line :=
  ⟨1, [], ⟨.op .mov, .o, .unsigned, .lb⟩, [.reg (.xmm 1)], .none, .eq, []⟩

theorem parse_lonelyMove : Listing.parse (.ofString "movox_lb Xmm1") = .ok ⟨[lonelyMove], []⟩ := by
  have read : (Listing.parse (.ofString "movox_lb Xmm1")).toOption = some ⟨[lonelyMove], []⟩ := by
    decide +kernel
  cases outcome : Listing.parse (.ofString "movox_lb Xmm1") with
  | ok listing =>
    rw [outcome] at read
    rw [Option.some.inj read]
  | error f =>
    rw [outcome] at read
    cases read

theorem listing_trap_iff_lonelyMove :
    ((Listing.mk [lonelyMove] []).assemble (X86.backend (.x86 Level.sse2 "sse2" "128" 16 1))
      (.start Buffer.empty)).1 = .error .trap := by
  have found : encoder? (.x86 Level.sse2 "sse2" "128" 16 1) = .ok (X86.backend _) := rfl
  exact ((listing_trap_iff (.encoder found) _ _).2 _ parse_lonelyMove).2
    ⟨[], lonelyMove, [], rfl, rfl, rfl⟩

/-- A move and a compare and jump, each with a single operand, where the front end traps. -/
theorem front_end_traps :
    encode (.x86 Level.sse2 "sse2" "128" 16 1) (.ofString "movox_lb Xmm1") = .error .trap ∧
    Listing.parse (.ofString "cmjxx_rx Reax, Recx, EQ_x") = .error .trap := by
  constructor
  · rw [encode, parse_lonelyMove]
    rfl
  · decide +kernel

end LaneAsm
