import LaneAsm.Proofs.Listing.Mnemonic

/-!
Reading undoes writing. A line is well shaped if it has the operands of its mnemonic, each inside
its window, and names that no mark of a listing cuts. The text of a listing of such lines is read as
that listing, with its lines numbered from one.
-/
namespace LaneAsm

open Text RawText

/-! ## Well-shaped lines -/

inductive OperandKind where
  | reg
  | mem
  | imm
deriving DecidableEq

def Operand.kind : Operand → OperandKind
  | .reg _ => .reg
  | .mem _ => .mem
  | .imm _ => .imm

/-- The operands of a shape. The shape of labels takes a register unless it belongs to a jump. -/
def Shape.kinds : Shape → List OperandKind
  | .rr => [.reg, .reg]
  | .ld => [.reg, .mem]
  | .st => [.mem, .reg]
  | .ri => [.reg, .imm]
  | .rx | .lb => [.reg]
  | .rr3 => [.reg, .reg, .reg]
  | .ld3 => [.reg, .reg, .mem]
  | .ri3 => [.reg, .reg, .imm]

theorem Shape.length_of_kinds {s : Shape} {args : List Operand}
    (kinds : args.map Operand.kind = s.kinds) : args.length = s.arity := by
  have known : s.kinds.length = s.arity := by cases s <;> rfl
  rw [← known, ← kinds, List.length_map]

theorem Shape.kinds_ne_nil (s : Shape) : s.kinds ≠ [] := by cases s <;> exact nofun

namespace Line

def jumps (l : Line) : Bool := l.mnemonic.verb ∈ [.jmp, .op .mkj, .cmj]

/-- The operands, names and length of a line are such that its text stands for nothing else. -/
structure WellShaped (l : Line) : Prop where
  accepted : ∃ s, Mnemonic.parse s = .ok l.mnemonic
  jmp : l.mnemonic.verb = .jmp → l.mnemonic.shape = .lb ∧ l.args = []
  mkj : l.mnemonic.verb = .op .mkj → l.mnemonic.shape = .rx
  cmj : l.mnemonic.verb = .cmj → l.mnemonic.shape ∈ [.rr, .ri, .ld] ∧ l.cond ∈ Cond.named
  kinds : l.mnemonic.verb ≠ .jmp → l.args.map Operand.kind = l.mnemonic.shape.kinds
  valid : ∀ o ∈ l.args, o.Valid
  labels : ∀ name ∈ l.labels, name.IsName
  target : l.jumps = true → l.target.IsName
  short : l.render.byteLength < 65536

instance (l : Line) : Decidable l.WellShaped :=
  decidable_of_iff
    ((l.mnemonic.verb ∈ Verb.named ∧ l.mnemonic.consistent = true)
      ∧ (l.mnemonic.verb = .jmp → l.mnemonic.shape = .lb ∧ l.args = [])
      ∧ (l.mnemonic.verb = .op .mkj → l.mnemonic.shape = .rx)
      ∧ (l.mnemonic.verb = .cmj → l.mnemonic.shape ∈ [.rr, .ri, .ld] ∧ l.cond ∈ Cond.named)
      ∧ (l.mnemonic.verb ≠ .jmp → l.args.map Operand.kind = l.mnemonic.shape.kinds)
      ∧ (∀ o ∈ l.args, o.Valid) ∧ (∀ name ∈ l.labels, name.IsName)
      ∧ (l.jumps = true → l.target.IsName) ∧ l.render.byteLength < 65536)
    ⟨fun ⟨accepted, jmp, mkj, cmj, kinds, valid, labels, target, short⟩ =>
      ⟨Mnemonic.exists_parse_iff.2 accepted, jmp, mkj, cmj, kinds, valid, labels, target, short⟩,
      fun h => ⟨Mnemonic.exists_parse_iff.1 h.accepted, h.jmp, h.mkj, h.cmj, h.kinds, h.valid,
        h.labels, h.target, h.short⟩⟩

/-- A line with the fields that its operation does not use at their first values. -/
def used (l : Line) : Line :=
  match l.mnemonic.verb with
  | .jmp => { l with mask := .none, cond := .eq }
  | .op .mkj => { l with cond := .eq }
  | .cmj => { l with mask := .none }
  | .op _ => { l with mask := .none, cond := .eq, target := [] }

theorem labels_used (l : Line) : l.used.labels = l.labels := by
  unfold used
  split <;> rfl

/-- What a line says behind its labels. -/
def instruction (l : Line) : RawText :=
  ofString l.mnemonic.text ++ .char ' ' :: (ofString ", ").intercalate l.operandTexts

theorem render_eq (l : Line) : l.render = labelsText l.labels ++ l.instruction := by
  simp only [render, instruction, ofString_append, List.append_assoc]
  rfl

end Line

namespace Listing

/-! ## Instructions -/

theorem parseArg_listed {shape : Shape} {i : Nat} {o : Operand}
    (kind : shape.kinds[i]? = some o.kind) (valid : o.Valid) :
    parseArg shape i shape.arity (ofString o.listed) = .ok o := by
  -- shape and place choose a reader, and it is the one for the kind of the operand there
  have chosen : parseArg shape i shape.arity (ofString o.listed) = match o.kind with
      | .reg => (parseReg (ofString o.listed)).map .reg
      | .mem => (parseMem (ofString o.listed)).map .mem
      | .imm => (parseImm (ofString o.listed)).map .imm := by
    revert kind
    generalize o.kind = k
    cases shape <;> rcases i with _ | _ | _ | i <;> intro kind <;> cases kind <;> rfl
  rw [chosen]
  cases o with
  | reg r => exact congrArg (Except.map Operand.reg) (parseReg_text valid).1
  | mem m => exact congrArg (Except.map Operand.mem) (parseMem_listed valid).1
  | imm i => exact congrArg (Except.map Operand.imm) (parseImm_text valid).1

theorem parseArgs_listed {shape : Shape} {i : Nat} {args : List Operand}
    (kinds : args.map Operand.kind = shape.kinds.drop i) (valid : ∀ o ∈ args, o.Valid) :
    parseArgs shape shape.arity i (args.map fun o => ofString o.listed) = .ok args := by
  induction args generalizing i with
  | nil => rfl
  | cons o args ih =>
    have here : shape.kinds[i]? = some o.kind := by
      rw [← List.head?_drop, ← kinds]
      rfl
    have later : args.map Operand.kind = shape.kinds.drop (i + 1) := by
      rw [← List.tail_drop, ← kinds]
      rfl
    have first := parseArg_listed here (valid o List.mem_cons_self)
    have rest := ih later fun p member => valid p (List.mem_cons_of_mem _ member)
    rw [List.map_cons, parseArgs, first, rest]
    rfl

theorem isWord_mask (c : MaskCond) : (ofString c.text).IsWord := by cases c <;> decide +kernel

theorem upper_mask (c : MaskCond) : String.ofList (upper c.text.toList) = c.text := by
  cases c <;> decide +kernel

theorem isWord_cond : ∀ c ∈ Cond.named, (ofString c.text).IsWord ∧ Cond.ofText? c.text = some c := by
  decide +kernel

end Listing

namespace Line.WellShaped

open Listing

variable {l : Line} (shaped : l.WellShaped)
include shaped

theorem arguments : l.operandTexts ≠ [] ∧ ∀ t ∈ l.operandTexts, Argument t := by
  have args : ∀ t ∈ l.args.map (fun o => ofString o.listed), Argument t :=
    List.forall_mem_map.2 fun o member => argument_listed (shaped.valid o member)
  have target (jump : l.jumps = true) : ∀ t ∈ [l.target], Argument t :=
    List.forall_mem_singleton.2 (.of_isName (shaped.target jump))
  unfold Line.operandTexts
  cases verb : l.mnemonic.verb with
  | jmp => exact ⟨List.cons_ne_nil _ _, target (by simp [Line.jumps, verb])⟩
  | cmj =>
    have word := (isWord_cond _ (shaped.cmj verb).2).1
    exact ⟨by simp, List.forall_mem_append.2 ⟨args, List.forall_mem_cons.2
      ⟨.of_isName word.isName, target (by simp [Line.jumps, verb])⟩⟩⟩
  | op o =>
    by_cases masked : o = .mkj
    · subst masked
      exact ⟨by simp, List.forall_mem_append.2 ⟨args, List.forall_mem_cons.2
        ⟨.of_isName (isWord_mask _).isName, target (by simp [Line.jumps, verb])⟩⟩⟩
    · have kinds := shaped.kinds (by simp [verb])
      simp only
      refine ⟨fun none => ?_, args⟩
      rw [List.map_eq_nil_iff.1 none] at kinds
      exact l.mnemonic.shape.kinds_ne_nil kinds.symm

theorem isWord_mnemonic : (ofString l.mnemonic.text).IsWord :=
  Mnemonic.isWord_text (Mnemonic.exists_parse_iff.1 shaped.accepted).1

theorem content : Content l.instruction := by
  obtain ⟨present, arguments⟩ := shaped.arguments
  have word := shaped.isWord_mnemonic.isName
  unfold Line.instruction
  cases texts : l.operandTexts with
  | nil => exact absurd texts present
  | cons t ts =>
    rw [texts] at arguments
    have joined := content_intercalate arguments
    constructor
    · simpa using word.inked.append [.char ' '] joined.inked
    · exact word.quiet.append_cons joined.quiet (by decide)
    · simp [word.not_mem (c := .char ':') (by decide), joined.unlabelled]

theorem splitArgs_instruction :
    splitArgs (RawText.trim ((ofString ", ").intercalate l.operandTexts)) = l.operandTexts := by
  obtain ⟨present, arguments⟩ := shaped.arguments
  cases texts : l.operandTexts with
  | nil => exact absurd texts present
  | cons t ts =>
    rw [texts] at arguments
    rw [trim_eq_self (content_intercalate arguments).inked, splitArgs_intercalate arguments]

theorem parseInstr_instruction :
    parseInstr l.instruction = .ok { l.used with number := 0, labels := [] } := by
  obtain ⟨named, consistent⟩ := Mnemonic.exists_parse_iff.1 shaped.accepted
  have word := shaped.isWord_mnemonic.isName
  have front : cut? (.char ' ') l.instruction
      = some (ofString l.mnemonic.text, (ofString ", ").intercalate l.operandTexts) :=
    cut?_append (word.not_mem (by decide)) _
  have texts := shaped.splitArgs_instruction
  simp only [parseInstr, front, Option.getD_some, trim_eq_self word.inked, chars_ofString,
    Mnemonic.parse_text named consistent, texts, Fault.lift_ok, bind, Except.bind]
  -- the operands before a condition are looked up by place, so their list is needed in full
  cases verb : l.mnemonic.verb with
  | jmp =>
    simp [verb, shaped.jmp verb, Line.operandTexts, Line.used, Shape.arity, pure, Except.pure]
  | cmj =>
    obtain ⟨shape, known⟩ := shaped.cmj verb
    have kinds := shaped.kinds (by simp [verb])
    have parsed := parseArgs_listed (i := 0) kinds shaped.valid
    have length := Shape.length_of_kinds kinds
    have two : l.mnemonic.shape.arity = 2 := by
      generalize l.mnemonic.shape = s at shape
      revert s
      decide
    rw [two] at parsed length
    obtain ⟨a, b, pair⟩ : ∃ a b, l.args = [a, b] := by
      obtain ⟨a, as, front⟩ := List.exists_cons_of_length_eq_add_one length
      rw [front] at length
      obtain ⟨b, rfl⟩ := List.length_eq_one_iff.1 (Nat.succ.inj length)
      exact ⟨a, b, front⟩
    rw [pair] at parsed
    simp only [List.map_cons, List.map_nil] at parsed
    simp [verb, two, pair, parsed, Line.operandTexts, Line.used, text_ofString,
      (isWord_cond _ known).2, Fault.lift_ok, pure, Except.pure]
  | op o =>
    have kinds := shaped.kinds (by simp [verb])
    have parsed := parseArgs_listed (i := 0) kinds shaped.valid
    have length := Shape.length_of_kinds kinds
    by_cases masked : o = .mkj
    · subst masked
      rw [shaped.mkj verb] at parsed length
      obtain ⟨a, single⟩ := List.length_eq_one_iff.1 length
      rw [single] at parsed
      simp only [List.map_singleton, Shape.arity] at parsed
      simp [verb, shaped.mkj verb, single, parsed, Line.operandTexts, Line.used, Shape.arity,
        upper_mask, Fault.lift_ok, pure, Except.pure]
      cases l.mask <;> rfl
    · simp [verb, masked, Line.operandTexts, Line.used, parsed, length, Fault.lift_ok, pure, Except.pure]

end Line.WellShaped

/-! ## Labels -/

namespace Listing

/-- A line that reading changes nothing of before it looks for labels. -/
structure Tidy (t : RawText) : Prop where
  quiet : t.Quiet
  inked : t = [] ∨ Inked Symbol.isBlank t

theorem Tidy.trim_eq {t : RawText} (tidy : Tidy t) : t.trim = t := by
  rcases tidy.inked with rfl | inked
  · rfl
  · exact trim_eq_self inked

theorem Tidy.clean_eq {t : RawText} (tidy : Tidy t) : clean t = t := by
  have absent (c : Symbol) (mark : c ∈ [.char '#', .char ';', .char '\n']) : ¬ [c] <:+: t :=
    not_infix_of_not_mem (fun member => tidy.quiet.symbols c member mark) []
  rw [clean, before_eq_self (absent _ (by decide)), before_eq_self (absent _ (by decide)),
    before_eq_self tidy.quiet.single, tidy.trim_eq]

theorem Tidy.dropFinal_eq {t : RawText} (tidy : Tidy t) : dropFinal (.char '\r') t = t := by
  refine dropFinal_eq_self fun last => ?_
  rcases tidy.inked with rfl | inked
  · cases last
  · obtain ⟨r, c, rfl, blank⟩ := inked.ends
    rw [List.getLast?_append, List.getLast?_singleton, Option.some_or] at last
    cases last
    cases blank

/-- What stands behind the labels of a line: an instruction, or nothing. -/
def Rest (t : RawText) : Prop := t = [] ∨ Content t

variable {names : List RawText} {t : RawText}

theorem labelsText_cons (name : RawText) (names : List RawText) (t : RawText) :
    labelsText (name :: names) ++ t = name ++ .char ':' :: (labelsText names ++ t) := by
  simp [labelsText]

theorem tidy_labelsText (plain : ∀ name ∈ names, name.IsName) (rest : Rest t) :
    Tidy (labelsText names ++ t) := by
  induction names with
  | nil =>
    rcases rest with rfl | content
    · exact ⟨quiet_nil, .inl rfl⟩
    · exact ⟨content.quiet, .inr content.inked⟩
  | cons name names ih =>
    obtain ⟨first, others⟩ := List.forall_mem_cons.1 plain
    have later := ih others
    rw [labelsText_cons]
    -- the text ends as the rest does, or in the colon if there is no rest
    refine ⟨first.quiet.append_cons later.quiet (by decide), .inr ?_⟩
    have colon : Inked Symbol.isBlank [.char ':'] := .of_forall (by decide) (by decide)
    rcases later.inked with empty | inked
    · rw [empty]
      simpa using first.inked.append [] colon
    · simpa using first.inked.append [.char ':'] inked

theorem takeLabels_labelsText (plain : ∀ name ∈ names, name.IsName) (rest : Rest t) :
    takeLabels (labelsText names ++ t) = .ok (names, t) := by
  induction names with
  | nil =>
    have free : .char ':' ∉ t := by
      rcases rest with rfl | content
      · exact List.not_mem_nil
      · exact content.unlabelled
    change takeLabels t = _
    rw [takeLabels]
    split
    · rfl
    · next found =>
      rw [cut?_eq_none free] at found
      cases found
  | cons name names ih =>
    obtain ⟨first, others⟩ := List.forall_mem_cons.1 plain
    rw [labelsText_cons, takeLabels]
    have cut : cut? (.char ':') (name ++ .char ':' :: (labelsText names ++ t))
        = some (name, labelsText names ++ t) := cut?_append (first.not_mem (by decide)) _
    split
    · next found =>
      rw [cut] at found
      cases found
    · next found =>
      rw [cut] at found
      cases found
      have whole : name.any (· ∈ [.char ' ', .char '\t', .char '[', .char '(', .char ',']) = false := by
        refine List.any_eq_false.2 fun c member special => ?_
        exact first.apart (by decide) c member (of_decide_eq_true special)
      rw [whole, if_neg (by decide), trim_eq_self first.inked, if_neg first.present,
        (tidy_labelsText others rest).trim_eq, ih others]
      rfl

/-! ## Lines -/

theorem parseLines_line {l : Line} (shaped : l.WellShaped) (n : Nat) (ls : List RawText) :
    parseLines n [] (l.render :: ls) = (parseLines (n + 1) [] ls).map fun r =>
      ({ l.used with number := n } :: r.1, r.2) := by
  have rest : Rest l.instruction := .inr shaped.content
  have tidy := tidy_labelsText shaped.labels rest
  have taken := takeLabels_labelsText shaped.labels rest
  rw [← l.render_eq] at tidy taken
  have read := parseLines_of_takeLabels (Nat.not_le_of_lt shaped.short)
    (by rwa [tidy.dropFinal_eq, tidy.clean_eq]) n [] ls
  rw [read, if_neg shaped.content.inked.ne_nil, shaped.parseInstr_instruction, List.nil_append,
    ← l.labels_used]
  rfl

theorem parseLines_tail {tail : List RawText} (plain : ∀ name ∈ tail, name.IsName)
    (short : (labelsText tail).byteLength < 65536) (n : Nat) :
    parseLines n [] (if labelsText tail = [] then [] else [labelsText tail]) = .ok ([], tail) := by
  have tidy := tidy_labelsText plain (.inl rfl)
  have taken := takeLabels_labelsText plain (.inl rfl)
  rw [List.append_nil] at tidy taken
  split
  -- no label has an empty text, so there is no label here
  · next empty =>
    rw [empty, takeLabels] at taken
    cases taken
    rfl
  · have read := parseLines_of_takeLabels (Nat.not_le_of_lt short)
      (by rwa [tidy.dropFinal_eq, tidy.clean_eq]) n [] []
    rw [read, if_pos rfl]
    rfl

theorem parseLines_render {lines : List Line} (shaped : ∀ l ∈ lines, l.WellShaped) {last : List RawText}
    {tail : List RawText} (ended : ∀ n, parseLines n [] last = .ok ([], tail)) (n : Nat) :
    parseLines n [] (lines.map Line.render ++ last)
      = .ok ((lines.zipIdx n).map fun (l, n) => { l.used with number := n }, tail) := by
  induction lines generalizing n with
  | nil => exact ended n
  | cons l lines ih =>
    obtain ⟨first, others⟩ := List.forall_mem_cons.1 shaped
    rw [List.map_cons, List.cons_append, parseLines_line first, ih others]
    rfl

/-- Every line is well shaped, and so are the labels after the last of them. -/
structure WellShaped (l : Listing) : Prop where
  lines : ∀ line ∈ l.lines, line.WellShaped
  labels : ∀ name ∈ l.tail, name.IsName
  short : (labelsText l.tail).byteLength < 65536

instance (l : Listing) : Decidable l.WellShaped :=
  decidable_of_iff ((∀ line ∈ l.lines, line.WellShaped) ∧ (∀ name ∈ l.tail, name.IsName)
      ∧ (labelsText l.tail).byteLength < 65536)
    ⟨fun ⟨lines, labels, short⟩ => ⟨lines, labels, short⟩, fun h => ⟨h.1, h.2, h.3⟩⟩

/-- A listing with its lines numbered from one, and at their first values the fields that no
operation uses. -/
def reread (l : Listing) : Listing :=
  ⟨(l.lines.zipIdx 1).map fun (line, n) => { line.used with number := n }, l.tail⟩

/-- Reading takes labels, operands and comments apart just where writing has put them together. -/
theorem parse_render (l : Listing) (shaped : l.WellShaped) : parse l.render = .ok l.reread := by
  have lined (line : Line) (member : line ∈ l.lines) : .char '\n' ∉ line.render := by
    have known := shaped.lines line member
    have tidy := tidy_labelsText known.labels (.inr known.content)
    rw [← line.render_eq] at tidy
    exact fun newline => tidy.quiet.symbols _ newline (by decide)
  have tailed : .char '\n' ∉ labelsText l.tail := by
    have tidy := tidy_labelsText shaped.labels (.inl rfl)
    rw [List.append_nil] at tidy
    exact fun newline => tidy.quiet.symbols _ newline (by decide)
  rw [parse, render, lines_flatMap lined tailed,
    parseLines_render shaped.lines (parseLines_tail shaped.labels shaped.short)]
  rfl

/-- A listing with every kind of operand and of jump. -/
def spin : Listing :=
  ⟨[⟨1, [.ofString "top", .ofString "again"], ⟨.op .mov, .o, .unsigned, .ld⟩,
      [.reg (.xmm 1), .mem (.indexed (.base 5) (.base 6) ⟨0x40, .dp⟩)], .none, .eq, []⟩,
    ⟨2, [], ⟨.op .mkj, .o, .unsigned, .rx⟩, [.reg (.xmm 11)], .full, .eq, .ofString "done"⟩,
    ⟨3, [.ofString "step"], ⟨.op .add, .x, .unsigned, .ri⟩, [.reg (.base 0), .imm ⟨127, .ib⟩],
      .none, .eq, []⟩,
    ⟨4, [], ⟨.cmj, .x, .unsigned, .rr⟩, [.reg (.base 0), .reg (.base 9)], .none, .ltu,
      .ofString "again"⟩,
    ⟨5, [], ⟨.jmp, .x, .unsigned, .lb⟩, [], .none, .eq, .ofString "top"⟩],
    [.ofString "done", .ofString "end"]⟩

theorem parse_render_spin : spin.WellShaped ∧
    parse (.ofString ("top:again:movox_ld Xmm1, [Rebp + Resi + DP(0x40)]\n"
      ++ "mkjox_rx XmmB, FULL, done\nstep:addxx_ri Reax, IB(0x7f)\n"
      ++ "cmjxx_rr Reax, Reg09, LT_u, again\njmpxx_lb top\ndone:end:")) = .ok spin := by
  have shaped : spin.WellShaped := by decide +kernel
  have read := parse_render spin shaped
  have numbered : spin.reread = spin := by decide +kernel
  rw [numbered] at read
  refine ⟨shaped, ?_⟩
  rw [← read]
  exact congrArg parse (by decide +kernel)

end Listing

end LaneAsm
