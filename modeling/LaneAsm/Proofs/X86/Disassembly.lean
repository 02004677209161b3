import LaneAsm.Proofs.Halves
import LaneAsm.Proofs.X86.Levels
import LaneAsm.Proofs.X86.Reading

/-!
Disassembly of assembled code. Every instruction that is selected for a request is read back with its
own length, whatever bytes follow (`Chosen.reads`), so the disassembler steps from one instruction to
the next through the whole code.
-/
namespace LaneAsm

/-! ## Requests that are formed -/

/-- The operations of an assembler ask for operations of their own families only. -/
theorem Capability.lower_formed (cap : Capability) {i : Instr LabelRef} (formed : i.Formed) :
    ∀ p ∈ (cap.lower i).items, p.Formed := by
  intro p member
  cases (cap.lower_lowered i).items p member with
  | complement passed half source part => cases part <;> trivial
  | arith supported passed half source =>
    have other : ∀ op ∈ ([.add, .sub, .mul, .div, .ads, .sbs, .min, .max] : List Op),
        op.isCompare = false := by decide
    exact other _ formed
  | shift | shiftEach => exact formed
  | compare routed passed half source part =>
    cases part with
    | extreme bound supported => rcases bound with rfl | rfl <;> rfl
    | _ => trivial
  | _ => trivial

/-- A call of one of the assembler's operations, or a request to the backend that names an operation
of its own family. -/
def Call.Formed : Call → Prop
  | .request p => p.Formed
  | .instr i => i.Formed
  | _ => True

theorem Call.Formed.asks {c : Call} (formed : c.Formed) (cap : Capability) :
    c.Asks cap Primitive.Formed := by
  cases c with
  | instr i => exact cap.lower_formed formed
  | request p => exact formed
  | _ => trivial

namespace X86

/-! ## Forms that are read -/

/-- Every form of the encoder is decided at once, so that the tables of names are gone through in one
place: forms of bits, of operations, of shifts by an immediate, and general ones. -/
theorem tables_read :
    (∀ r : RegNum, ∀ f ∈ Form.bitwise ++ Form.auxiliary, f.Readable r 0 ∧ f.map ≠ .one ∧
      vexImmediate f.map.code f.opcode = false) ∧
    (∀ op ∈ Op.named, ∀ d ∈ Elem.all, ∀ t ∈ nativeForm? op d,
      (t.2 < Level.avx1 → ∀ r, t.1.Readable r (if d.isFloat && op.isCompare then 1 else 0)) ∧
        t.1.map ≠ .one ∧ vexImmediate t.1.map.code t.1.opcode = (d.isFloat && op.isCompare)) ∧
    (∀ bits ∈ [16, 32, 64], (∀ r : RegNum, r = 2 ∨ r = 6 ∨ r = 4 ∧ (bits = 16 ∨ bits = 32) →
      (Form.shiftGroup bits).Readable r 1) ∧ (Form.shiftGroup bits).map ≠ .one ∧
        vexImmediate (Form.shiftGroup bits).map.code (Form.shiftGroup bits).opcode = true) ∧
    (∀ r : RegNum, ∀ g ∈ .pblendvb :: Form.general, g.Readable r 0) ∧
    ∀ t ∈ Form.grouped, t.1.Readable t.2.1 t.2.2 := by
  decide +kernel

theorem listed_reads (r : RegNum) : ∀ f ∈ Form.bitwise ++ Form.auxiliary, f.Readable r 0 ∧ f.map ≠ .one ∧
    vexImmediate f.map.code f.opcode = false := tables_read.1 r

/-- A form of an operation carries an immediate exactly where it compares floats, and below VEX it is
in the tables of names. -/
theorem nativeForm?_reads {op : Op} {e : Elem} {f : Form} {level : Level}
    (found : nativeForm? op e = some (f, level)) :
    (level < Level.avx1 → ∀ r, f.Readable r (if e.isFloat && op.isCompare then 1 else 0)) ∧
      f.map ≠ .one ∧ vexImmediate f.map.code f.opcode = (e.isFloat && op.isCompare) :=
  of_nativeForm? (P := fun op float f level =>
    (level < Level.avx1 → ∀ r, f.Readable r (if float && op.isCompare then 1 else 0)) ∧
      f.map ≠ .one ∧ vexImmediate f.map.code f.opcode = (float && op.isCompare))
    tables_read.2.1 found

theorem shiftGroup_reads (bits : Nat) :
    (∀ r : RegNum, r = 2 ∨ r = 6 ∨ r = 4 ∧ (bits = 16 ∨ bits = 32) →
      (Form.shiftGroup bits).Readable r 1) ∧ (Form.shiftGroup bits).map ≠ .one ∧
      vexImmediate (Form.shiftGroup bits).map.code (Form.shiftGroup bits).opcode = true := by
  by_cases words : bits = 16
  · subst words
    exact tables_read.2.2.1 16 (by decide)
  by_cases doubles : bits = 32
  · subst doubles
    exact tables_read.2.2.1 32 (by decide)
  have same : Form.shiftGroup bits = .shiftGroup 64 := by
    simp only [Form.shiftGroup, words, doubles, if_false]
    rfl
  obtain ⟨readable, rest⟩ := tables_read.2.2.1 64 (by decide)
  rw [same]
  refine ⟨fun r digit => readable r ?_, rest⟩
  rcases digit with second | sixth | ⟨-, other | other⟩
  · exact .inl second
  · exact .inr (.inl sixth)
  · exact absurd other words
  · exact absurd other doubles

section
variable {cfg : Config} {p : Primitive} {f : Form} {r : RegNum} {imm : List UInt8}

/-- A suited form is escaped, and in VEX it ends in an immediate exactly where the disassembler takes
one. -/
theorem Suited.escaped {long : Bool} (suited : Suited cfg p f long r imm) (formed : p.Formed) :
    f.map ≠ .one ∧ imm.length = if vexImmediate f.map.code f.opcode then 1 else 0 := by
  cases suited with
  | bitwise listed =>
    obtain ⟨-, escaped, none⟩ := listed_reads r f (List.mem_append_left _ listed)
    exact ⟨escaped, by rw [none]; rfl⟩
  | auxiliary listed =>
    obtain ⟨-, escaped, none⟩ := listed_reads r f (List.mem_append_right _ listed)
    exact ⟨escaped, by rw [none]; rfl⟩
  | native form reached r wide given =>
    obtain ⟨-, escaped, immediate⟩ := nativeForm?_reads form
    exact ⟨escaped, by rw [immediate]; exact given formed⟩
  | @group bits =>
    obtain ⟨-, escaped, immediate⟩ := shiftGroup_reads bits
    exact ⟨escaped, by rw [immediate]; rfl⟩

/-- Without VEX a suited form is found by name. -/
theorem Suited.readable {long : Bool} (suited : Suited cfg p f long r imm) (formed : p.Formed)
    (lacks : vexed cfg = false) : f.Readable r imm.length := by
  cases suited with
  | bitwise listed => exact (listed_reads r f (List.mem_append_left _ listed)).1
  | auxiliary listed => exact (listed_reads r f (List.mem_append_right _ listed)).1
  | native form reached r wide given =>
    have below : cfg.level < Level.avx1 := by
      refine Nat.lt_of_not_le fun level => ?_
      rw [vexed_eq_true.2 level] at lacks
      cases lacks
    rw [given formed]
    exact (nativeForm?_reads form).1 (Nat.lt_of_le_of_lt reached below) r
  | @group bits _ r n digit => exact (shiftGroup_reads bits).1 r (digit formed.shifts)

theorem general_reads (listed : f.sized false ∈ Form.general) (r : RegNum) :
    f.Readable r ([] : List UInt8).length :=
  tables_read.2.2.2.1 r (f.sized false) (List.mem_cons_of_mem _ listed)

theorem grouped_reads {n : Nat} (listed : (f.sized false, r, n) ∈ Form.grouped) : f.Readable r n :=
  tables_read.2.2.2.2 (f.sized false, r, n) listed

end

/-! ## Instructions that are read -/

/-- How the bytes of an instruction are read in front of any others: in VEX by the fields of the
prefix, and otherwise by name. -/
def Insn.Reads (short : Bool) (i : Insn) (bytes : List UInt8) : Prop :=
  match i with
  | .vex f long _ _ x _ => ∀ rest, decodeVex? (bytes ++ rest)
      = some ⟨bytes.length, (if short && x.isMem then "addr32 " else "") ++ vexText f long⟩
  | _ => Finds bytes

section
variable {cfg : Config} {p : Primitive} {i : Insn} {short : Bool} {c : List UInt8}

/-- An instruction without a distance is read as it is encoded. -/
theorem Chosen.reads_bytes (chosen : Chosen cfg p i) (formed : p.Formed) (other : i.target? = none)
    (short : Bool) : i.Reads short (i.bytes short) := by
  cases chosen with
  | vex v x suited has =>
    obtain ⟨escaped, given⟩ := suited.escaped formed
    exact decodeVex?_vex escaped given _ _ _ _ _
  | legacy x suited lacks => exact finds_legacy (suited.readable formed lacks) _ _
  | ones r v x float => exact decodeVex?_vex (by decide) (by decide) _ _ _ _ _
  | upper r v x float => exact decodeVex?_vex (by decide) (by decide) _ _ _ _ _
  | blend r v x n full has blends => exact decodeVex?_vex (by decide) rfl _ _ _ _ _
  | blendFirst r x lacks blends =>
    have readable : Form.pblendvb.Readable r ([] : List UInt8).length :=
      tables_read.2.2.2.1 r .pblendvb List.mem_cons_self
    exact finds_legacy readable _ _
  | blank r v x irregular => exact absurd formed.shifts.regular irregular
  | general listed r x => exact finds_legacy (general_reads listed r) _ _
  | grouped listed x => exact finds_legacy (grouped_reads listed) _ _
  | push r => exact finds_push r
  | pop r => exact finds_pop r
  | movImm r v => exact finds_movImm r v
  | cmpImm v => exact finds_cmpImm (length_littleEndian _ _)
  | jcc code l => cases other
  | jmp l => cases other

/-- Every instruction that is selected for a formed request is read with the length it is written
with, a jump whatever its distance. -/
theorem Chosen.reads (chosen : Chosen cfg p i) (formed : p.Formed) (written : i.Written short c) :
    i.Reads short c := by
  cases written with
  | plain other => exact chosen.reads_bytes formed other short
  | @jump front old distance jumps bytes room closed =>
    cases chosen with
    | @jcc cc code l =>
      have split : [0x0F, 0x80 + cc] ++ [0, 0, 0, 0] = front ++ old := bytes
      obtain ⟨rfl, -⟩ := List.append_inj' split room.symm
      exact finds_jcc code closed
    | jmp l =>
      have split : [0xE9] ++ [0, 0, 0, 0] = front ++ old := bytes
      obtain ⟨rfl, -⟩ := List.append_inj' split room.symm
      exact finds_jmp closed
    | _ => exact absurd rfl jumps

end

/-! ## The walk -/

theorem worded_vexText (addressed : Bool) (f : Form) (long : Bool) :
    Worded ((if addressed then "addr32 " else "") ++ vexText f long).toList := by
  cases addressed with
  | true =>
    rw [String.toList_append]
    exact worded_append (by decide) _
  | false =>
    simp only [vexText, Bool.false_eq_true, if_false, String.empty_append, String.append_assoc]
    rw [String.toList_append]
    exact worded_append (by decide) _

/-- An instruction that is not in VEX. -/
def Insn.OutsideVex (i : Insn) : Prop := ∀ f, i.form? ≠ some (true, f)

/-- A decoder finds an instruction with its length, whatever stands behind it. -/
def Decoder.Measures (d : Decoder) (short : Bool) (i : Insn) : Prop :=
  ∀ c, i.Written short c → ∀ rest, ∃ text, d (c ++ rest) = some ⟨c.length, text⟩

/-- What a decoder calls an instruction is not the text of a byte of data. -/
def Decoder.Names (d : Decoder) (short : Bool) (i : Insn) : Prop :=
  ∀ c, i.Written short c → ∀ rest f, d (c ++ rest) = some f →
    ¬ "db ".toList <+: Text.lower f.text.toList

theorem Insn.vex_or_outside (i : Insn) :
    (∃ f long r v x imm, i = .vex f long r v x imm) ∨ i.OutsideVex := by
  cases i with
  | vex f long r v x imm => exact .inl ⟨f, long, r, v, x, imm, rfl⟩
  | _ => exact .inr fun f => by simp [form?]

section
variable {d : Decoder} {short : Bool} {i : Insn} {c : List UInt8}

theorem Insn.Reads.outside (reads : i.Reads short c) (other : i.OutsideVex) : Finds c := by
  cases i with
  | vex f => exact absurd rfl (other f)
  | _ => exact reads

theorem Insn.Reads.ne_nil (reads : i.Reads short c) : c ≠ [] := by
  rintro rfl
  rcases i.vex_or_outside with ⟨f, long, r, v, x, imm, rfl⟩ | other
  · cases reads []
  · obtain ⟨-, text, found, -⟩ := reads.outside other []
    cases found

/-- An instruction that is read is found at the front of code that starts with its bytes. -/
theorem Insn.Reads.found (reads : i.Reads short c) (written : i.Written short c)
    (measures : i.OutsideVex → d.Measures short i) (rest : List UInt8) :
    ∃ text, instruction? d (c ++ rest) = some ⟨c.length, text⟩ := by
  rcases i.vex_or_outside with ⟨f, long, r, v, x, imm, rfl⟩ | other
  · exact ⟨_, by rw [instruction?, reads rest]⟩
  · obtain ⟨text, found⟩ := measures other c written rest
    exact ⟨_, by rw [instruction?, (reads.outside other rest).1, found]; rfl⟩

/-- What is found is no byte of data if the decoder finds none. -/
theorem Insn.Reads.worded (reads : i.Reads short c) (written : i.Written short c)
    (names : i.OutsideVex → d.Names short i) {rest : List UInt8} {found : Found}
    (here : instruction? d (c ++ rest) = some found) : Worded found.text.toList := by
  rcases i.vex_or_outside with ⟨f, long, r, v, x, imm, rfl⟩ | other
  · rw [instruction?, reads rest] at here
    cases here
    exact worded_vexText _ _ _
  · rw [instruction?, (reads.outside other rest).1] at here
    obtain ⟨named, same, rfl⟩ := Option.map_eq_some_iff.1 here
    rw [String.toList_ofList]
    exact names other c written rest named same

/-- One step of the walk: the line of an instruction, and the walk behind it. -/
theorem decodeFrom_step {text : String} {rest : List UInt8} (bytes : c ≠ [])
    (found : instruction? d (c ++ rest) = some ⟨c.length, text⟩) (offset : Nat) :
    decodeFrom d offset (c ++ rest) = ⟨offset, c, text⟩ :: decodeFrom d (offset + c.length) rest := by
  obtain ⟨first, more, rfl⟩ := List.exists_cons_of_ne_nil bytes
  rw [List.cons_append] at found ⊢
  rw [decodeFrom, decodeFront, found]
  simp only [Option.getD_some, List.length_cons, Nat.add_sub_cancel, List.take_left' rfl,
    List.drop_left' rfl]

end

/-- The lines of code that is made of instructions: one for each, in order, with its bytes and the text
of what is found there, that starts where the lines before it end. -/
structure Walks (d : Decoder) (short : Bool) (offset : Nat) (is : List Insn) (lines : List CodeLine) :
    Prop where
  each : List.Forall₂ (fun i l => i.Written short l.bytes) is lines
  offsets : ∀ n l, lines[n]? = some l →
    l.offset = offset + ((lines.take n).flatMap (·.bytes)).length
  texts : ∀ n l, lines[n]? = some l →
    instruction? d ((lines.drop n).flatMap (·.bytes)) = some ⟨l.bytes.length, l.text⟩

theorem walks_flatten {d : Decoder} {short : Bool} {is : List Insn} {chunks : List (List UInt8)}
    (reads : List.Forall₂ (fun i c => i.Written short c ∧ i.Reads short c) is chunks)
    (measures : ∀ i ∈ is, i.OutsideVex → d.Measures short i) (offset : Nat) :
    Walks d short offset is (decodeFrom d offset chunks.flatten) ∧
      (decodeFrom d offset chunks.flatten).flatMap (·.bytes) = chunks.flatten := by
  induction reads generalizing offset with
  | nil =>
    rw [List.flatten_nil, decodeFrom]
    exact ⟨⟨.nil, by simp, by simp⟩, rfl⟩
  | @cons i c is chunks first rest ih =>
    obtain ⟨written, reads⟩ := first
    obtain ⟨here, later⟩ := List.forall_mem_cons.1 measures
    obtain ⟨text, found⟩ := reads.found written here chunks.flatten
    obtain ⟨walks, bytes⟩ := ih later (offset + c.length)
    rw [List.flatten_cons, decodeFrom_step reads.ne_nil found]
    refine ⟨⟨.cons written walks.each, fun n l line => ?_, fun n l line => ?_⟩,
      by rw [List.flatMap_cons, bytes]⟩
    · cases n with
      | zero =>
        cases line
        rfl
      | succ n =>
        rw [List.getElem?_cons_succ] at line
        rw [walks.offsets n l line, List.take_succ_cons, List.flatMap_cons, List.length_append,
          Nat.add_assoc]
    · cases n with
      | zero =>
        cases line
        rw [List.drop_zero, List.flatMap_cons, bytes]
        exact found
      | succ n =>
        rw [List.getElem?_cons_succ] at line
        rw [List.drop_succ_cons]
        exact walks.texts n l line

/-- Where the decoder names no byte of data, no line of the walk is one. -/
theorem Walks.worded {d : Decoder} {short : Bool} {offset : Nat} {is : List Insn}
    {lines : List CodeLine} (walks : Walks d short offset is lines)
    (reads : ∀ i ∈ is, ∀ c, i.Written short c → i.Reads short c)
    (names : ∀ i ∈ is, i.OutsideVex → d.Names short i) : ∀ l ∈ lines, Worded l.text.toList := by
  intro l member
  obtain ⟨n, line⟩ := List.mem_iff_getElem?.1 member
  obtain ⟨bound, same⟩ := List.getElem?_eq_some_iff.1 line
  have fits : n < is.length := walks.each.length_eq ▸ bound
  have written : is[n].Written short l.bytes := same ▸ walks.each.get fits bound
  have here := walks.texts n l line
  rw [List.drop_eq_getElem_cons bound, same, List.flatMap_cons] at here
  exact (reads _ (List.getElem_mem fits) _ written).worded written
    (names _ (List.getElem_mem fits)) here

/-- The instructions of formed calls are read wherever they stand. -/
theorem reads_of_emitted (cfg : Config) {calls : List Call} (formed : ∀ c ∈ calls, c.Formed) :
    ∀ i ∈ emitted cfg calls, ∀ c, i.Written cfg.shortAddress c → i.Reads cfg.shortAddress c := by
  intro i member c written
  obtain ⟨p, asked, chosen⟩ := exists_chosen_of_insnsAll
    (fun c member => (formed c member).asks (capability cfg)) _ i member
  exact chosen.reads asked written

-- A request that is not formed may be encoded without the immediate of its form: an arithmetic one
-- that compares floats is four bytes, and the disassembler takes a fifth.
example : emitted (.x86 Level.avx1 "avx1" "128" 16 1)
      [.request (.arith .ceq .f32 (.xmm 1) (.xmm 2) (.reg (.xmm 3)))] = [.vex .cmpps false 1 2 (.reg 3) []] ∧
    ((Insn.vex .cmpps false 1 2 (.reg 3) []).bytes false).length = 4 ∧
    (decodeVex? ((Insn.vex .cmpps false 1 2 (.reg 3) []).bytes false ++ [0x90])).map (·.size) = some 5 := by
  decide +kernel

/-- The decoder for the instructions of the encoder finds and names those of formed calls. -/
theorem decodeLegacy?_finds (cfg : Config) {calls : List Call} (formed : ∀ c ∈ calls, c.Formed) :
    ∀ i ∈ emitted cfg calls, i.OutsideVex →
      decodeLegacy?.Measures cfg.shortAddress i ∧ decodeLegacy?.Names cfg.shortAddress i := by
  intro i member other
  have finds (c : List UInt8) (written : i.Written cfg.shortAddress c) : Finds c :=
    (reads_of_emitted cfg formed i member c written).outside other
  refine ⟨fun c written rest => ?_, fun c written rest f found => ?_⟩
  · obtain ⟨-, text, found, -⟩ := finds c written rest
    exact ⟨text, found⟩
  · obtain ⟨-, text, same, worded⟩ := finds c written rest
    obtain rfl := Option.some.inj (same.symm.trans found)
    exact worded

/-- The disassembler walks the instructions of assembled code. For any formed calls and the code they
finish with, and any decoder that gives the instructions outside VEX their lengths, there is one line
for each instruction that was emitted, in order, with the bytes of the instruction; the lines have
every byte, each starts where those before it end, and each is the instruction that is found there and
no byte of data. An instruction in VEX is found in front of any bytes with its whole length, and its
text has the vector length, the mandatory prefix, the map, the operand-size bit and the opcode it was
encoded with. No other instruction is found in VEX. -/
theorem disassembly_walks_instructions (d : Decoder) (cfg : Config) (calls : List Call)
    (formed : ∀ c ∈ calls, c.Formed) {code : Bytes}
    (finished : (Branching.x86.after cfg calls).finish.1 = .ok code)
    (measures : ∀ i ∈ emitted cfg calls, i.OutsideVex → d.Measures cfg.shortAddress i) :
    List.Forall₂ (fun i (l : CodeLine) => i.Written cfg.shortAddress l.bytes)
      (emitted cfg calls) (decode d code) ∧
    (decode d code).flatMap (·.bytes) = code.toList ∧
    (∀ n l, (decode d code)[n]? = some l →
      l.offset = (((decode d code).take n).flatMap (·.bytes)).length ∧
      instruction? d (code.toList.drop l.offset) = some ⟨l.bytes.length, l.text⟩) ∧
    ((∀ i ∈ emitted cfg calls, i.OutsideVex → d.Names cfg.shortAddress i) →
      ∀ l ∈ decode d code, ¬ "db ".toList <+: l.text.toList) ∧
    (∀ f long r v x imm, Insn.vex f long r v x imm ∈ emitted cfg calls → ∀ rest,
      decodeVex? ((Insn.vex f long r v x imm).bytes cfg.shortAddress ++ rest)
        = some ⟨((Insn.vex f long r v x imm).bytes cfg.shortAddress).length,
          (if cfg.shortAddress && x.isMem then "addr32 " else "") ++ vexText f long⟩) ∧
    ∀ i ∈ emitted cfg calls, i.OutsideVex →
      ∀ c, i.Written cfg.shortAddress c → ∀ rest, decodeVex? (c ++ rest) = none := by
  have reads := reads_of_emitted cfg formed
  obtain ⟨chunks, written, joined⟩ := (holds_after cfg calls).finished finished
  obtain ⟨walks, bytes⟩ := walks_flatten ((List.forall₂_and_left _ _).2 ⟨reads, written⟩ |>.imp
    fun i c both => ⟨both.2, both.1 c both.2⟩) measures 0
  rw [joined] at walks bytes
  refine ⟨walks.each, bytes, fun n l line => ?_, walks.worded reads, ?_, ?_⟩
  · have offset : l.offset = (((decode d code).take n).flatMap (·.bytes)).length :=
      (walks.offsets n l line).trans (Nat.zero_add _)
    -- the code from the offset on is that of the lines from here on
    have behind : code.toList.drop l.offset = ((decode d code).drop n).flatMap (·.bytes) := by
      rw [offset, ← bytes, ← List.take_append_drop n (decodeFrom d 0 code.toList),
        List.flatMap_append]
      exact List.drop_left' rfl
    exact ⟨offset, by rw [behind]; exact walks.texts n l line⟩
  · intro f long r v x imm member rest
    exact reads _ member _ (.plain rfl) rest
  · intro i member other c written rest
    exact ((reads i member c written).outside other rest).1

/-- A loop that adds floats from memory with short addresses: its code is finished, and it is
disassembled into the addition, the comparison and the jump. -/
theorem disassembly_walks_instructions_loop :
    let cfg := { Config.x86 Level.avx2 "avx2" "256" 32 1 with shortAddress := true }
    let top : LabelRef := some ⟨.ofString "top", 0⟩
    let calls := [Call.newLabel (.ofString "top"), .instr (.bind top),
      .instr (.arith .add .f32 (.xmm 1) (.xmm 2) (.mem (.plain (.base 3) ⟨64, .dp⟩))),
      .instr (.compareJump (.base 2) (.imm ⟨7, .ib⟩) .ne top)]
    ∃ code, (Branching.x86.after cfg calls).finish.1 = .ok code ∧
      (decode decodeLegacy? code).length = 3 ∧
      (decode decodeLegacy? code).flatMap (·.bytes) = code.toList ∧
      (∀ l ∈ decode decodeLegacy? code, ¬ "db ".toList <+: l.text.toList) ∧
      ∀ rest, decodeVex? ([0x67, 0xC5, 0xEC, 0x58, 0x4B, 0x40] ++ rest)
        = some ⟨6, "addr32 vex.256.0f.w0 58"⟩ := by
  intro cfg top calls
  have instructions : emitted cfg calls
      = [.vex (.m0F 0x58) true 1 2 (.mem (.plain (.base 3) ⟨64, .dp⟩)) [],
        .legacy (.one 0x83 true) 7 (.reg 2) [7], .jcc 5 top] := by
    decide +kernel
  obtain ⟨code, finished, -⟩ : ∃ code, (Branching.x86.after cfg calls).finish.1 = .ok code ∧
      decide (code.size = 16) = true := ok_of_any (by decide +kernel)
  have formed : ∀ c ∈ calls, c.Formed := by simp [calls, Call.Formed, Instr.Formed]
  have finds := decodeLegacy?_finds cfg formed
  obtain ⟨lines, bytes, -, named, found, -⟩ := disassembly_walks_instructions decodeLegacy? cfg calls
    formed finished fun i member other => (finds i member other).1
  refine ⟨code, finished, ?_, bytes, named fun i member other => (finds i member other).2, ?_⟩
  · rw [← lines.length_eq, instructions]
    rfl
  · have encoded : (Insn.vex (.m0F 0x58) true 1 2 (.mem (.plain (.base 3) ⟨64, .dp⟩)) []).bytes true
        = [0x67, 0xC5, 0xEC, 0x58, 0x4B, 0x40] := by decide +kernel
    have named : "addr32 " ++ vexText (.m0F 0x58) true = "addr32 vex.256.0f.w0 58" := by decide +kernel
    rw [← encoded, ← named]
    exact found _ _ _ _ _ _ (by rw [instructions]; exact List.mem_cons_self)

end X86

end LaneAsm
