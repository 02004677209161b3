import LaneAsm.Proofs.Listing
import LaneAsm.Proofs.Listing.Program
import LaneAsm.Proofs.Composition
import Mathlib.Data.List.Forall2

/-!
The operands of a line that are kept. How many operand texts a line has follows from its shape, and how
many of them are read from its operation. A jump reads the texts that it has a use for and leaves the
others alone (`Listing.Spelled`, `Mnemonic.surplus`); every other line reads them all. Of the operands
that were read, an instruction has each as one of its own, but for the complement and the base move of
three operands, which look at two (`Mnemonic.ignores`).
-/
namespace LaneAsm

open Text

theorem Fault.lift_eq_ok {α : Type} {x : Except Error α} {a : α} :
    Fault.lift x = .ok a ↔ x = .ok a := by
  cases x with
  | ok b =>
    exact ⟨fun same => congrArg _ (Except.ok.inj same), fun same => congrArg _ (Except.ok.inj same)⟩
  | error e => exact ⟨fun same => (by cases same), fun same => (by cases same)⟩

/-- One of the things that the operand texts of a line say. -/
inductive Retained where
  | operand (o : Operand)
  | mask (c : MaskCond)
  | cond (c : Cond)
  | target (name : RawText)
deriving DecidableEq

/-- What a line keeps, in the order of its texts. -/
def Line.retained (l : Line) : List Retained :=
  l.args.map .operand ++ match l.mnemonic.verb with
    | .jmp => [.target l.target]
    | .op .mkj => [.mask l.mask, .target l.target]
    | .cmj => [.cond l.cond, .target l.target]
    | .op _ => []

/-- The parts of an instruction that a line gives. -/
def Instr.uses : Instr RawText → List Retained
  | .mov dst src | .movBase dst src => [.operand dst, .operand src]
  | .logic _ dst s1 s2 | .arith _ _ dst s1 s2 | .shift _ _ dst s1 s2 | .shiftEach _ _ dst s1 s2
  | .compare _ _ dst s1 s2 => [.operand (.reg dst), .operand (.reg s1), .operand s2]
  | .not dst src => [.operand (.reg dst), .operand (.reg src)]
  | .merge dst src | .arithBase _ dst src => [.operand (.reg dst), .operand src]
  | .shiftBase _ _ dst count => [.operand (.reg dst), .operand (.imm count)]
  | .maskJump src cond target => [.operand (.reg src), .mask cond, .target target]
  | .compareJump x y cond target => [.operand (.reg x), .operand y, .cond cond, .target target]
  | .jump target | .bind target => [.target target]
  | .unformed _ => []

theorem Shape.arity_le_two (s : Shape) (two : s.three = false) : s.arity ≤ 2 := by
  cases s <;> first | decide | cases two

theorem Shape.arity_eq_three (s : Shape) (three : s.three = true) : s.arity = 3 := by
  cases s <;> first | rfl | cases three

namespace Mnemonic

/-- How many operand texts a line has that nothing reads. -/
def surplus (m : Mnemonic) : Nat :=
  match m.verb with
  | .jmp | .op .mkj => m.shape.arity - 1
  | .cmj => m.shape.arity - 2
  | .op _ => 0

/-- Whether the instruction has no place for the last operand that was read. -/
def ignores (m : Mnemonic) : Bool :=
  m.shape.three && m.verb == .op (if m.isBase then .mov else .not)

theorem surplus_of_op {m : Mnemonic} {o : Op} (verb : m.verb = .op o) (other : o ≠ .mkj) :
    m.surplus = 0 := by
  rw [surplus, verb]
  cases o <;> first | rfl | exact absurd rfl other

end Mnemonic

theorem Line.retained_of_op {l : Line} {o : Op} (verb : l.mnemonic.verb = .op o) (other : o ≠ .mkj) :
    l.retained = l.args.map .operand := by
  rw [retained, verb]
  cases o <;> first | exact List.append_nil _ | exact absurd rfl other

namespace Listing

/-! ## Reading -/

/-- What stands in front of the operands of an instruction. -/
def writtenName (text : RawText) : RawText := ((cut? (.char ' ') text).getD (text, [])).1

/-- The texts of the operands of an instruction. -/
def writtenArgs (text : RawText) : List RawText :=
  splitArgs (RawText.trim ((cut? (.char ' ') text).getD (text, [])).2)

/-- A text says what is kept of it. -/
def Says (text : RawText) : Retained → Prop
  | .operand (.reg r) => parseReg text = .ok r
  | .operand (.mem m) => parseMem text = .ok m
  | .operand (.imm n) => parseImm text = .ok n
  | .mask c => String.ofList (upper text.chars) = c.text
  | .cond c => Cond.ofText? text.text = some c
  | .target name => text = name

/-- A mnemonic and operand texts make a line: what the line keeps, and that the texts behind it are
left alone. -/
inductive Spelled (m : Mnemonic) : List RawText → Line → Prop
  | jump {target : RawText} {rest : List RawText} (verb : m.verb = .jmp)
      (count : rest.length + 1 = m.shape.arity) :
      Spelled m (target :: rest) ⟨0, [], m, [], .none, .eq, target⟩
  | maskJump {x mask target : RawText} {rest : List RawText} {c : MaskCond} {args : List Operand}
      (verb : m.verb = .op .mkj) (count : rest.length + 1 = m.shape.arity)
      (said : String.ofList (upper mask.chars) = c.text)
      (read : parseArgs m.shape 1 0 [x] = .ok args) :
      Spelled m (x :: mask :: target :: rest) ⟨0, [], m, args, c, .eq, target⟩
  | compareJump {x y cond target : RawText} {rest : List RawText} {c : Cond} {args : List Operand}
      (verb : m.verb = .cmj) (count : rest.length + 2 = m.shape.arity)
      (said : Cond.ofText? cond.text = some c)
      (read : parseArgs m.shape 2 0 [x, y] = .ok args) :
      Spelled m (x :: y :: cond :: target :: rest) ⟨0, [], m, args, .none, c, target⟩
  | operation {o : Op} {texts : List RawText} {args : List Operand} (verb : m.verb = .op o)
      (other : o ≠ .mkj) (count : texts.length = m.shape.arity)
      (read : parseArgs m.shape texts.length 0 texts = .ok args) :
      Spelled m texts ⟨0, [], m, args, .none, .eq, []⟩

theorem exists_spelled {text : RawText} {l : Line} (read : parseInstr text = .ok l) :
    ∃ m, Mnemonic.parse (RawText.trim (writtenName text)).chars = .ok m ∧
      Spelled m (writtenArgs text) l := by
  unfold writtenName writtenArgs
  unfold parseInstr at read
  generalize (cut? (.char ' ') text).getD (text, []) = parts at read ⊢
  obtain ⟨name, rest⟩ := parts
  dsimp only at read ⊢
  generalize splitArgs (RawText.trim rest) = texts at read ⊢
  obtain ⟨m, parsed, read⟩ := bind_eq_ok.1 read
  refine ⟨m, Fault.lift_eq_ok.1 parsed, ?_⟩
  by_cases count : texts.length
      = m.shape.arity + if m.verb == .cmj || m.verb == .op .mkj then 2 else 0
  · rw [if_neg (not_not_intro count)] at read
    have pos := m.shape.arity_pos
    split at read
    · next verb =>
      have one : texts.length = m.shape.arity := by simpa [verb] using count
      cases texts with
      | nil => exact absurd one (Nat.ne_of_lt pos)
      | cons target rest =>
        obtain rfl := Except.ok.inj read
        exact .jump verb one
    · next verb =>
      have many : texts.length = m.shape.arity + 2 := by simpa [verb] using count
      rcases texts with _ | ⟨x, _ | ⟨mask, _ | ⟨target, rest⟩⟩⟩
      iterate 3 exact absurd many (by simp only [List.length_nil, List.length_cons]; omega)
      have count : rest.length + 1 = m.shape.arity := by
        simp only [List.length_cons] at many
        omega
      have kept {c : MaskCond} (said : String.ofList (upper mask.chars) = c.text)
          (read : (Fault.lift (parseArgs m.shape 1 0 [x]) >>= fun args =>
            pure ⟨0, [], m, args, c, .eq, target⟩) = .ok l) :
          Spelled m (x :: mask :: target :: rest) l := by
        obtain ⟨args, readArgs, read⟩ := bind_eq_ok.1 read
        obtain rfl := Except.ok.inj read
        exact .maskJump verb count said (Fault.lift_eq_ok.1 readArgs)
      split at read
      · next said => exact kept (c := .none) said read
      · next said => exact kept (c := .full) said read
      · cases read
    · next verb =>
      have many : texts.length = m.shape.arity + 2 := by simpa [verb] using count
      split at read
      · next c said =>
        split at read
        · next target last =>
          rcases texts with _ | ⟨x, _ | ⟨y, _ | ⟨cond, _ | ⟨target', rest⟩⟩⟩⟩
          iterate 4 cases last
          obtain rfl := Option.some.inj last
          have count : rest.length + 2 = m.shape.arity := by
            simp only [List.length_cons] at many
            omega
          obtain ⟨args, readArgs, read⟩ := bind_eq_ok.1 read
          obtain rfl := Except.ok.inj read
          exact .compareJump verb count said (Fault.lift_eq_ok.1 readArgs)
        · cases read
      · cases read
    · next o other verb =>
      have notMask : o ≠ .mkj := other
      obtain ⟨args, readArgs, read⟩ := bind_eq_ok.1 read
      obtain rfl := Except.ok.inj read
      exact .operation verb notMask (by simpa [verb, notMask] using count) (Fault.lift_eq_ok.1 readArgs)
  · rw [if_pos count] at read
    cases read

theorem Spelled.parseInstr {m : Mnemonic} {text : RawText} {l : Line}
    (parsed : Mnemonic.parse (RawText.trim (writtenName text)).chars = .ok m)
    (spelled : Spelled m (writtenArgs text) l) : parseInstr text = .ok l := by
  unfold writtenName at parsed
  unfold writtenArgs at spelled
  unfold Listing.parseInstr
  generalize (cut? (.char ' ') text).getD (text, []) = parts at parsed spelled ⊢
  obtain ⟨name, rest⟩ := parts
  dsimp only at parsed spelled ⊢
  generalize splitArgs (RawText.trim rest) = texts at spelled ⊢
  refine bind_eq_ok.2 ⟨m, Fault.lift_eq_ok.2 parsed, ?_⟩
  cases spelled with
  | jump verb count =>
    rw [if_neg (by simp [verb, count]), verb]
    rfl
  | @maskJump x mask target rest c args verb count said read =>
    cases c with
    | none => simp [verb, ← count, said, MaskCond.text, read, Fault.lift_ok, bind, Except.bind, pure,
        Except.pure]
    | full => simp [verb, ← count, said, MaskCond.text, read, Fault.lift_ok, bind, Except.bind, pure,
        Except.pure]
  | @compareJump x y cond target rest c args verb count said read =>
    simp [verb, ← count, said, read, Fault.lift_ok, bind, Except.bind, pure, Except.pure]
  | @operation o texts args verb other count read =>
    rw [count] at read
    simp [verb, other, count, read, Fault.lift_ok, bind, Except.bind, pure, Except.pure]

theorem says_of_parseArg {shape : Shape} {i n : Nat} {text : RawText} {o : Operand}
    (read : parseArg shape i n text = .ok o) : Says text (.operand o) := by
  have mapped {α : Type} {x : Except Error α} {f : α → Operand} (read : x.map f = .ok o) :
      ∃ a, x = .ok a ∧ o = f a := by
    cases x with
    | ok a => exact ⟨a, rfl, (Except.ok.inj read).symm⟩
    | error e => cases read
  unfold parseArg at read
  dsimp only at read
  split at read
  · obtain ⟨m, said, rfl⟩ := mapped read
    exact said
  · split at read
    · obtain ⟨n, said, rfl⟩ := mapped read
      exact said
    · obtain ⟨r, said, rfl⟩ := mapped read
      exact said

theorem says_of_parseArgs {shape : Shape} {n i : Nat} {texts : List RawText} {args : List Operand}
    (read : parseArgs shape n i texts = .ok args) :
    List.Forall₂ Says texts (args.map .operand) := by
  induction texts generalizing i args with
  | nil =>
    obtain rfl := Except.ok.inj read
    exact .nil
  | cons text texts ih =>
    obtain ⟨first, firstRead, read⟩ := bind_eq_ok.1 read
    obtain ⟨rest, restRead, read⟩ := bind_eq_ok.1 read
    obtain rfl := Except.ok.inj read
    exact .cons (says_of_parseArg firstRead) (ih restRead)

/-- The texts of a line are those that say what it keeps and others, which could be any. -/
theorem Spelled.split {m : Mnemonic} {texts : List RawText} {l : Line} (spelled : Spelled m texts l) :
    l.mnemonic = m ∧ ∃ kept rest, texts = kept ++ rest ∧ List.Forall₂ Says kept l.retained ∧
      rest.length = m.surplus ∧ ∀ rest', rest'.length = rest.length → Spelled m (kept ++ rest') l := by
  cases spelled with
  | @jump target rest verb count =>
    refine ⟨rfl, [target], rest, rfl, ?_, ?_, fun rest' same => .jump verb (same ▸ count)⟩
    · simp only [Line.retained, verb]
      exact .cons rfl .nil
    · simp only [Mnemonic.surplus, verb]
      omega
  | @maskJump x mask target rest c args verb count said read =>
    refine ⟨rfl, [x, mask, target], rest, rfl, ?_, ?_,
      fun rest' same => .maskJump verb (same ▸ count) said read⟩
    · simp only [Line.retained, verb]
      exact List.rel_append (says_of_parseArgs read) (.cons said (.cons rfl .nil))
    · simp only [Mnemonic.surplus, verb]
      omega
  | @compareJump x y cond target rest c args verb count said read =>
    refine ⟨rfl, [x, y, cond, target], rest, rfl, ?_, ?_,
      fun rest' same => .compareJump verb (same ▸ count) said read⟩
    · simp only [Line.retained, verb]
      exact List.rel_append (says_of_parseArgs read) (.cons said (.cons rfl .nil))
    · simp only [Mnemonic.surplus, verb]
      omega
  | @operation o texts args verb other count read =>
    refine ⟨rfl, texts, [], (List.append_nil _).symm, ?_, (m.surplus_of_op verb other).symm, ?_⟩
    · rw [Line.retained_of_op (l := ⟨0, [], m, args, .none, .eq, []⟩) verb other]
      exact says_of_parseArgs read
    · intro rest' same
      rw [List.length_eq_zero_iff.1 same, List.append_nil]
      exact .operation verb other count read

end Listing

/-! ## Assembling -/

namespace Line

variable {l : Line} {i : Instr RawText}

theorem regArg_eq_ok {n : Nat} {r : Reg} : l.regArg n = .ok r ↔ l.arg n = .ok (.reg r) := by
  unfold regArg
  cases l.arg n with
  | error e => exact ⟨fun same => (by cases same), fun same => (by cases same)⟩
  | ok o =>
    cases o with
    | reg r' =>
      exact ⟨fun same => congrArg _ (congrArg _ (Except.ok.inj same)),
        fun same => congrArg _ (Operand.reg.inj (Except.ok.inj same))⟩
    | mem m => exact ⟨fun same => (by cases same), fun same => (by cases same)⟩
    | imm n => exact ⟨fun same => (by cases same), fun same => (by cases same)⟩

/-- The arguments from one that was found on. -/
theorem drop_args {n : Nat} {x : Operand} (found : l.arg n = .ok x) :
    l.args.drop n = x :: l.args.drop (n + 1) := by
  unfold arg at found
  split at found
  · next here =>
    obtain rfl := Except.ok.inj found
    obtain ⟨inside, rfl⟩ := List.getElem?_eq_some_iff.1 here
    exact List.drop_eq_getElem_cons inside
  · cases found

theorem args_of_one {x : Operand} (first : l.arg 0 = .ok x) (length : l.args.length = 1) :
    l.args = [x] := by
  have front : l.args = x :: l.args.drop 1 := drop_args first
  rwa [List.drop_eq_nil_of_le (Nat.le_of_eq length)] at front

theorem args_of_two {x y : Operand} (first : l.arg 0 = .ok x) (second : l.arg 1 = .ok y) :
    l.args = x :: y :: l.args.drop 2 := by
  have front : l.args = x :: l.args.drop 1 := drop_args first
  rw [drop_args second] at front
  exact front

/-- An instruction has a place for what its line keeps: for each of it, with the destination perhaps in
two places, or for all but the last of three. -/
def Used (l : Line) (i : Instr RawText) : Prop :=
  if l.mnemonic.ignores then l.retained.length = 3 ∧ i.uses = l.retained.take 2
  else i.uses = l.retained ∨ i.uses = l.retained.take 1 ++ l.retained

theorem used_of_eq (places : l.mnemonic.ignores = false) (same : i.uses = l.retained) : l.Used i := by
  rw [Used, places, if_neg Bool.false_ne_true]
  exact .inl same

theorem used_of_twice (places : l.mnemonic.ignores = false)
    (same : i.uses = l.retained.take 1 ++ l.retained) : l.Used i := by
  rw [Used, places, if_neg Bool.false_ne_true]
  exact .inr same

/-- An operation with a form has a place for each of its operands. -/
theorem uses_ofOp {op : Op} {e : Elem} {d x : Reg} {y : Operand} (other : op ≠ .not)
    (formed : Instr.ofOp op e d x y ≠ (.unformed op : Instr RawText)) :
    (Instr.ofOp op e d x y).uses = [.operand (.reg d), .operand (.reg x), .operand y] := by
  cases op with
  | not => exact absurd rfl other
  | _ => first | rfl | exact absurd rfl formed

theorem retained_of_one {o : Op} (verb : l.mnemonic.verb = .op o) (other : o ≠ .mkj)
    (length : l.args.length = 1) {x : Operand} (first : l.arg 0 = .ok x) : l.retained = [.operand x] := by
  rw [retained_of_op verb other, args_of_one first length]
  rfl

section
variable (known : l.Read)
include known

theorem Read.retained_of_two {o : Op} (verb : l.mnemonic.verb = .op o) (other : o ≠ .mkj)
    (two : l.mnemonic.shape.three = false) {x y : Operand} (first : l.arg 0 = .ok x)
    (second : l.arg 1 = .ok y) : l.retained = [.operand x, .operand y] := by
  have short := l.mnemonic.shape.arity_le_two two
  rw [← known.length_of_op verb other] at short
  rw [retained_of_op verb other, args_of_two first second, List.drop_eq_nil_of_le short]
  rfl

/-- Of three operands, the first two are found. -/
theorem Read.retained_of_three {o : Op} (verb : l.mnemonic.verb = .op o) (other : o ≠ .mkj)
    (three : l.mnemonic.shape.three = true) {x y : Operand} (first : l.arg 0 = .ok x)
    (second : l.arg 1 = .ok y) : ∃ z, l.arg 2 = .ok z ∧
      l.retained = [.operand x, .operand y, .operand z] := by
  have length := known.length_of_op verb other
  rw [l.mnemonic.shape.arity_eq_three three] at length
  obtain ⟨z, third⟩ : ∃ z, l.arg 2 = .ok z := ⟨_, arg_eq_ok (by omega)⟩
  refine ⟨z, third, ?_⟩
  rw [retained_of_op verb other, args_of_two first second, drop_args third,
    List.drop_eq_nil_of_le (Nat.le_of_eq length)]
  rfl

/-- An instruction of the first two operands ignores an operand if there is a third. -/
theorem Read.used_of_two {o : Op} (verb : l.mnemonic.verb = .op o) (other : o ≠ .mkj)
    (ignores : l.mnemonic.ignores = l.mnemonic.shape.three) {x y : Operand} (first : l.arg 0 = .ok x)
    (second : l.arg 1 = .ok y) (same : i.uses = [.operand x, .operand y]) : l.Used i := by
  cases three : l.mnemonic.shape.three with
  | false =>
    refine used_of_eq (ignores.trans three) ?_
    rw [same, known.retained_of_two verb other three first second]
  | true =>
    obtain ⟨z, -, kept⟩ := known.retained_of_three verb other three first second
    rw [Used, ignores, if_pos three, kept]
    exact ⟨rfl, same⟩

theorem Read.used_of_vectorInstr (vector : l.mnemonic.isBase = false) {bits : Nat}
    (found : l.vectorInstr bits = .ok i) (formed : ∀ op, i ≠ .unformed op) : l.Used i := by
  obtain ⟨o, verb⟩ := known.operation_of_vector vector
  have places (other : o ≠ .not) : l.mnemonic.ignores = false := by
    simp [Mnemonic.ignores, verb, vector, other]
  simp only [vectorInstr, verb, Verb.operation] at found
  -- the cases are the move, the jump on a mask, the masked move, the complement and all others
  split at found
  · split at found
    · cases found
    · next fits =>
      simp only [Bool.or_eq_true, not_or, Bool.not_eq_true] at fits
      obtain ⟨dst, first, found⟩ := bind_eq_ok.1 found
      obtain ⟨src, second, found⟩ := bind_eq_ok.1 found
      obtain rfl := Except.ok.inj found
      have ignores := (places (by decide)).trans fits.1.1.symm
      exact known.used_of_two verb (by decide) ignores first second rfl
  · obtain ⟨src, first, found⟩ := bind_eq_ok.1 found
    obtain rfl := Except.ok.inj found
    have length : l.args.length = 1 := by rw [known.length, Mnemonic.operands, verb]
    refine used_of_eq (places (by decide)) ?_
    simp only [Instr.uses, retained, verb, args_of_one (regArg_eq_ok.1 first) length, List.map_cons,
      List.map_nil, List.cons_append, List.nil_append]
  · obtain ⟨dst, first, found⟩ := bind_eq_ok.1 found
    split at found
    · cases found
    · next two =>
      obtain ⟨src, second, found⟩ := bind_eq_ok.1 found
      obtain rfl := Except.ok.inj found
      have ignores := (places (by decide)).trans (eq_false_of_ne_true two).symm
      exact known.used_of_two verb (by decide) ignores (regArg_eq_ok.1 first) second rfl
  · have ignores : l.mnemonic.ignores = l.mnemonic.shape.three := by
      simp [Mnemonic.ignores, verb, vector]
    obtain ⟨dst, first, found⟩ := bind_eq_ok.1 found
    have first := regArg_eq_ok.1 first
    split at found
    · obtain ⟨src, second, found⟩ := bind_eq_ok.1 found
      obtain rfl := Except.ok.inj found
      exact known.used_of_two verb (by decide) ignores first (regArg_eq_ok.1 second) rfl
    · next short =>
      obtain rfl := Except.ok.inj found
      have length := known.length_of_op verb (by decide)
      have pos := l.mnemonic.shape.arity_pos
      have two : l.mnemonic.shape.three = false := by
        cases three : l.mnemonic.shape.three with
        | false => rfl
        | true => exact absurd (l.mnemonic.shape.arity_eq_three three) (by omega)
      refine used_of_twice (ignores.trans two) ?_
      rw [retained_of_one verb (by decide) (by omega) first]
      rfl
  · next notMov notMkj notMmv notNot =>
    split at found
    · cases found
    · obtain ⟨dst, first, found⟩ := bind_eq_ok.1 found
      have first := regArg_eq_ok.1 first
      split at found
      · next three =>
        obtain ⟨s1, second, found⟩ := bind_eq_ok.1 found
        obtain ⟨s2, third, found⟩ := bind_eq_ok.1 found
        obtain rfl := Except.ok.inj found
        obtain ⟨z, third', kept⟩ :=
          known.retained_of_three verb notMkj three first (regArg_eq_ok.1 second)
        obtain rfl := Except.ok.inj (third'.symm.trans third)
        refine used_of_eq (places notNot) ?_
        rw [uses_ofOp notNot (formed _), kept]
      · next two =>
        obtain ⟨src, second, found⟩ := bind_eq_ok.1 found
        obtain rfl := Except.ok.inj found
        refine used_of_twice (places notNot) ?_
        rw [uses_ofOp notNot (formed _),
          known.retained_of_two verb notMkj (eq_false_of_ne_true two) first second]
        rfl

theorem Read.used_of_baseInstr (base : l.mnemonic.isBase = true) (found : l.baseInstr = .ok i) :
    l.Used i := by
  have places (other : l.mnemonic.verb ≠ .op .mov) : l.mnemonic.ignores = false := by
    simp [Mnemonic.ignores, base, other]
  unfold baseInstr at found
  dsimp only at found
  split at found
  · next verb =>
    obtain rfl := Except.ok.inj found
    have none : l.args = [] := by
      rw [← List.length_eq_zero_iff, known.length, Mnemonic.operands, verb]
    refine used_of_eq (places (by simp [verb])) ?_
    simp only [Instr.uses, retained, verb, none, List.map_nil, List.nil_append]
  · next verb =>
    obtain ⟨x, first, found⟩ := bind_eq_ok.1 found
    obtain ⟨y, second, found⟩ := bind_eq_ok.1 found
    obtain rfl := Except.ok.inj found
    have two : l.args.length = 2 := by rw [known.length, Mnemonic.operands, verb]
    have args := args_of_two (regArg_eq_ok.1 first) second
    rw [List.drop_eq_nil_of_le (Nat.le_of_eq two)] at args
    refine used_of_eq (places (by simp [verb])) ?_
    simp only [Instr.uses, retained, verb, args, List.map_cons, List.map_nil, List.cons_append,
      List.nil_append]
  · next verb =>
    obtain ⟨dst, first, found⟩ := bind_eq_ok.1 found
    obtain ⟨src, second, found⟩ := bind_eq_ok.1 found
    obtain rfl := Except.ok.inj found
    have ignores : l.mnemonic.ignores = l.mnemonic.shape.three := by
      simp [Mnemonic.ignores, verb, base]
    exact known.used_of_two verb (by decide) ignores first second rfl
  · next o notMov verb =>
    split at found
    · cases found
    · next fits =>
      have two : l.mnemonic.shape.three = false := by
        cases shape : l.mnemonic.shape <;> simp_all [Shape.three]
      have ignores := (places (by simpa [verb] using notMov)).trans two.symm
      obtain ⟨dst, first, found⟩ := bind_eq_ok.1 found
      have first := regArg_eq_ok.1 first
      split at found
      case h_8 => cases found
      iterate 5
        obtain ⟨src, second, found⟩ := bind_eq_ok.1 found
        obtain rfl := Except.ok.inj found
        exact known.used_of_two verb (by decide) ignores first second rfl
      -- the two shifts take a number only
      all_goals
        obtain ⟨src, second, found⟩ := bind_eq_ok.1 found
        cases src with
        | imm n =>
          obtain rfl := Except.ok.inj found
          exact known.used_of_two verb (by decide) ignores first second rfl
        | reg r => cases found
        | mem m => cases found

theorem Read.used (bits : Nat) (found : l.instr bits = .ok i) (formed : ∀ op, i ≠ .unformed op) :
    l.Used i := by
  unfold instr at found
  split at found
  · next base => exact known.used_of_baseInstr base found
  · next vector => exact known.used_of_vectorInstr (eq_false_of_ne_true vector) found formed

/-- An operand that an instruction has no place for could be any. -/
theorem Read.instr_set (ignores : l.mnemonic.ignores = true) (bits : Nat) (o : Operand) :
    instr bits { l with args := l.args.set 2 o } = l.instr bits := by
  rw [Mnemonic.ignores, Bool.and_eq_true, beq_iff_eq] at ignores
  obtain ⟨three, verb⟩ := ignores
  have length := known.length_of_op verb (by split <;> decide)
  rw [l.mnemonic.shape.arity_eq_three three] at length
  obtain ⟨x, y, z, args⟩ := List.length_eq_three.1 length
  cases base : l.mnemonic.isBase with
  | true =>
    rw [base, if_pos rfl] at verb
    simp [instr, base, baseInstr, verb, arg, args]
  | false =>
    rw [base, if_neg Bool.false_ne_true] at verb
    simp [instr, base, vectorInstr, verb, Verb.operation, regArg, arg, args]

end

end Line

theorem Assembly.formed_of_issue {σ : Type} {b : Backend σ} {a a' : Assembly σ} {i : Instr RawText}
    (issued : a.issue b i = (.ok (), a')) (clear : a'.assembler.error? = none) (op : Op) :
    i ≠ .unformed op := by
  rintro rfl
  rw [issue_eq] at issued
  obtain ⟨ended, rfl⟩ := Prod.mk.inj issued
  obtain ⟨-, planned, -⟩ := Assembler.issue_eq_ok.1 ⟨Prod.ext ended rfl, clear⟩
  cases planned

/-- The operands of a line are read from its first texts, one from each. The texts behind them, which
only jumps have, could be any. Where the line is assembled, its instruction has a place for every
operand that was read, or for all but the last of three, which could be any. -/
theorem operands_kept {text : RawText} {l : Line} (read : Listing.parseInstr text = .ok l) :
    (∃ kept rest, Listing.writtenArgs text = kept ++ rest ∧
      List.Forall₂ Listing.Says kept l.retained ∧ rest.length = l.mnemonic.surplus ∧
      ∀ other rest', Listing.writtenName other = Listing.writtenName text →
        Listing.writtenArgs other = kept ++ rest' → rest'.length = rest.length →
        Listing.parseInstr other = .ok l) ∧
    ∀ {σ : Type} (b : Backend σ) (a a' : Assembly σ) (number : Nat) (labels : List RawText),
      a.line b { l with number, labels } = (.ok (), a') → ∃ i,
        l.instr b.config.baseBits = .ok i ∧
        a.issueAll? b (labels.map .bind ++ [i]) = some a' ∧ l.Used i ∧
        (l.mnemonic.ignores = true → ∀ o,
          Line.instr b.config.baseBits { l with args := l.args.set 2 o } = .ok i) := by
  have known := Listing.read_of_parseInstr read
  constructor
  · obtain ⟨m, parsed, spelled⟩ := Listing.exists_spelled read
    obtain ⟨rfl, kept, rest, texts, said, count, any⟩ := spelled.split
    refine ⟨kept, rest, texts, said, count, fun other rest' name texts' same => ?_⟩
    rw [← name] at parsed
    have spelled' := any rest' same
    rw [← texts'] at spelled'
    exact spelled'.parseInstr parsed
  · intro σ b a a' number labels done
    obtain ⟨clear, i, found, issued⟩ := Assembly.line_eq_ok.1 done
    have found : l.instr b.config.baseBits = .ok i := found
    obtain ⟨a₁, -, last⟩ := Assembly.issueAll?_append.1 issued
    obtain ⟨a₂, issued', clear', -⟩ := Assembly.issueAll?_cons.1 last
    refine ⟨i, found, issued, known.used _ found (Assembly.formed_of_issue issued' clear'), ?_⟩
    intro ignores o
    rw [known.instr_set ignores, found]

/-- A complement of three operands. -/
def wideComplement : Line :=
  ⟨0, [], ⟨.op .not, .o, .unsigned, .rr3⟩, [.reg (.xmm 1), .reg (.xmm 2), .reg (.xmm 3)], .none, .eq, []⟩

theorem operands_kept_complement :
    let b := X86.backend (.x86 Level.sse2 "sse2" "128" 16 1)
    Listing.parseInstr (.ofString "notox3rr Xmm1, Xmm2, Xmm3") = .ok wideComplement ∧
      (Assembly.line b ⟨.start .empty, []⟩ wideComplement).1 = .ok () ∧
      ∀ o, Line.instr 64 { wideComplement with args := wideComplement.args.set 2 o }
        = .ok (.not (.xmm 1) (.xmm 2)) := by
  intro b
  have read : Listing.parseInstr (.ofString "notox3rr Xmm1, Xmm2, Xmm3") = .ok wideComplement := by
    decide +kernel
  have accepted : (Assembly.line b ⟨.start .empty, []⟩ wideComplement).1 = .ok () := by rfl
  obtain ⟨i, found, -, -, any⟩ := (operands_kept read).2 b ⟨.start .empty, []⟩ _ 0 []
    (Prod.ext accepted rfl)
  have same : wideComplement.instr 64 = .ok (.not (.xmm 1) (.xmm 2)) := rfl
  refine ⟨read, accepted, fun o => ?_⟩
  rw [← same]
  exact (any rfl o).trans found.symm

/-- A jump is read that says where to go twice. -/
theorem operand_dropped :
    ∃ l, Listing.parseInstr (.ofString "jmpxx_rr top, elsewhere") = .ok l ∧
      (Listing.writtenArgs (.ofString "jmpxx_rr top, elsewhere")).length = 2 ∧
      l.retained = [.target (.ofString "top")] := by
  refine ⟨⟨0, [], ⟨.jmp, .x, .unsigned, .rr⟩, [], .none, .eq, .ofString "top"⟩, ?_, ?_, ?_⟩
  all_goals decide +kernel

end LaneAsm
