import LaneAsm.Msa.Decode
import LaneAsm.Proofs.Pieces

/-!
Instruction words read back. The layouts of vector instructions have their two lower registers and the
minor opcode in common (`vectorWord`); what stands above them is told apart by the minor opcode. Every
word that is put together from fields in their ranges is read as the instruction it was made from
(`decode?_word`), so that no two instructions share a word.
-/
namespace LaneAsm.Msa

/-- The number of bits of a lane. -/
def Format.bits : Format → Nat
  | .b => 8
  | .h => 16
  | .w => 32
  | .d => 64

namespace Insn

/-- The fields of an instruction are in their ranges: operations have names, shifts stay below the lane
width, a spread element is the first of its format and offsets fit their ten bits. -/
def Packed : Insn → Prop
  | .nop => False
  | .three op _ _ _ _ => op ≠ .blank
  | .bit _ df count _ _ => count < df.bits
  | .splat element _ _ => ∃ df, element = firstElement df
  | .access _ _ _ _ offset => -512 ≤ offset ∧ offset ≤ 511
  | .special _ _ _ _ count => count < 32
  | _ => True

/-- A branch over another distance. -/
def leading (offset : UInt16) : Insn → Insn
  | .branch op wt _ => .branch op wt offset
  | .imm op rt rs _ => .imm op rt rs offset
  | i => i

end Insn

/-! ## Tables -/

theorem Three.find?_code {op : Three} (named : op ≠ .blank) :
    Three.named.find? (·.code == op.code) = some op := by
  cases op <;> first | rfl | exact absurd rfl named

theorem Float3.find?_code (op : Float3) : Float3.all.find? (·.code == op.code) = some op := by
  cases op <;> rfl

theorem VecOp.find?_code (op : VecOp) : VecOp.all.find? (·.code == op.code) = some op := by
  cases op <;> rfl

theorem BitOp.find?_code (op : BitOp) : BitOp.all.find? (·.code == op.code) = some op := by
  cases op <;> rfl

theorem BranchOp.find?_code (op : BranchOp) : BranchOp.all.find? (·.code == op.code) = some op := by
  cases op <;> rfl

theorem Special.find?_code (op : Special) : Special.all.find? (·.code == op.code) = some op := by
  cases op <;> rfl

theorem ImmOp.find?_code (op : ImmOp) : ImmOp.all.find? (·.code == op.code) = some op := by
  cases op <;> rfl

theorem Format.ofCode_code (df : Format) : Format.ofCode df.code = df := by
  cases df <;> rfl

theorem shiftOfField_shiftField (df : Format) :
    ∀ count < df.bits, shiftOfField (shiftField df count) = (df, count) := by
  cases df <;> decide

theorem firstElement_lt (df : Format) : firstElement df < 64 := by
  cases df <;> decide

/-- The minor opcodes of integer operations are none of the other layouts. -/
theorem Three.minor (op : Three) :
    op.code.1 ≠ 0x1E ∧ op.code.1 ≠ 0x09 ∧ op.code.1 ≠ 0x19 ∧
      ¬ (op.code.1 = 0x1A ∨ op.code.1 = 0x1B ∨ op.code.1 = 0x1C) ∧
      ¬ (op.code.1 / 4 = 0x8 ∨ op.code.1 / 4 = 0x9) := by
  cases op <;> decide

theorem Float3.minor (op : Float3) : op.code.1 = 0x1A ∨ op.code.1 = 0x1B ∨ op.code.1 = 0x1C := by
  cases op <;> decide

theorem BranchOp.code_lt (op : BranchOp) : op.code < 32 := by
  cases op <;> decide

theorem ImmOp.code_major (op : ImmOp) :
    op.code < 64 ∧ op.code ≠ 0 ∧ op.code ≠ 0x1E ∧ op.code ≠ 0x11 := by
  cases op <;> decide

/-! ## Vector instructions -/

/-- The word of a vector instruction, from its ten upper bits and its minor opcode. -/
def vectorWord (top minor : Nat) (wd ws : Num) : Nat :=
  vectorMajor + top * 2 ^ 16 + ws.val * 2 ^ 11 + wd.val * 2 ^ 6 + minor

theorem numAt_eq {w low : Nat} {n : Num} (read : field w low 5 = n.val) : numAt w low = n := by
  rw [numAt, read]
  exact Fin.ofNat_val_eq_self n

/-- What can be read of a vector instruction before its layout is known. -/
theorem read_vectorWord {w top minor : Nat} {wd ws : Num} (word : w = vectorWord top minor wd ws)
    (small : top < 2 ^ 10) (low : minor < 2 ^ 6) :
    decode? w = decodeVector? w ∧ field w 0 6 = minor ∧ field w 16 10 = top ∧ numAt w 11 = ws ∧
      numAt w 6 = wd := by
  have major : field w 26 6 = 0x1E := by
    simp only [field, word, vectorWord, vectorMajor]
    omega
  have nonzero : w ≠ 0 := by
    simp only [word, vectorWord, vectorMajor]
    omega
  refine ⟨?_, ?_, ?_, numAt_eq ?_, numAt_eq ?_⟩
  · simp only [decode?, nonzero, major, if_false, if_true]
  all_goals
    simp only [field, word, vectorWord, vectorMajor]
    omega

section
variable {w : Nat} {wd ws wt : Num}

theorem decode?_three {op : Three} {df : Format} (named : op ≠ .blank)
    (word : w = vectorWord (op.code.2 * 2 ^ 7 + df.code * 2 ^ 5 + wt.val) op.code.1 wd ws) :
    decode? w = some (.three op df wd ws wt) := by
  have op_lt := op.code_lt
  have df_lt := df.code_lt
  have operation : field w 23 3 = op.code.2 := by
    simp only [field, word, vectorWord, vectorMajor]
    omega
  have format : field w 21 2 = df.code := by
    simp only [field, word, vectorWord, vectorMajor]
    omega
  have second : numAt w 16 = wt := by
    apply numAt_eq
    simp only [field, word, vectorWord, vectorMajor]
    omega
  obtain ⟨vector, minor, -, source, target⟩ := read_vectorWord word (by omega) (by omega)
  obtain ⟨vec, bit, elm, float, access⟩ := op.minor
  simp only [vector, decodeVector?, minor, vec, bit, elm, float, access, if_false, operation, format,
    second, source, target, Three.find?_code named, Option.map_some, Format.ofCode_code]

theorem decode?_float {op : Float3} {double : Bool}
    (word : w = vectorWord (op.code.2 * 2 ^ 6 + double.toNat * 2 ^ 5 + wt.val) op.code.1 wd ws) :
    decode? w = some (.float op double wd ws wt) := by
  have op_lt := op.code_lt
  have double_lt := double.toNat_lt
  have operation : field w 22 4 = op.code.2 := by
    simp only [field, word, vectorWord, vectorMajor]
    omega
  have precision : field w 21 1 = double.toNat := by
    simp only [field, word, vectorWord, vectorMajor]
    omega
  have second : numAt w 16 = wt := by
    apply numAt_eq
    simp only [field, word, vectorWord, vectorMajor]
    omega
  obtain ⟨vector, minor, -, source, target⟩ := read_vectorWord word (by omega) (by omega)
  have float := op.minor
  have layout : op.code.1 ≠ 0x1E ∧ op.code.1 ≠ 0x09 ∧ op.code.1 ≠ 0x19 := by omega
  simp only [vector, decodeVector?, minor, layout, float, if_false, if_true, operation, precision,
    second, source, target, Float3.find?_code, Option.map_some]
  cases double <;> rfl

theorem decode?_vec {op : VecOp} (word : w = vectorWord (op.code * 2 ^ 5 + wt.val) 0x1E wd ws) :
    decode? w = some (.vec op wd ws wt) := by
  have op_lt := op.code_lt
  have operation : field w 21 5 = op.code := by
    simp only [field, word, vectorWord, vectorMajor]
    omega
  have second : numAt w 16 = wt := by
    apply numAt_eq
    simp only [field, word, vectorWord, vectorMajor]
    omega
  obtain ⟨vector, minor, -, source, target⟩ := read_vectorWord word (by omega) (by decide)
  simp only [vector, decodeVector?, minor, if_true, operation, second, source, target,
    VecOp.find?_code, Option.map_some]

theorem decode?_bit {op : BitOp} {df : Format} {count : Nat} (below : count < df.bits)
    (word : w = vectorWord (op.code * 2 ^ 7 + shiftField df count) 0x09 wd ws) :
    decode? w = some (.bit op df count wd ws) := by
  have op_lt := op.code_lt
  have count_lt := shiftField_lt df count
  have operation : field w 23 3 = op.code := by
    simp only [field, word, vectorWord, vectorMajor]
    omega
  have shift : field w 16 7 = shiftField df count := by
    simp only [field, word, vectorWord, vectorMajor]
    omega
  obtain ⟨vector, minor, -, source, target⟩ := read_vectorWord word (by omega) (by decide)
  have layout : (0x09 : Nat) ≠ 0x1E := by decide
  simp only [vector, decodeVector?, minor, layout, if_false, if_true, operation, shift, source, target,
    shiftOfField_shiftField df count below, BitOp.find?_code, Option.map_some]

theorem decode?_splat {df : Format} (word : w = vectorWord (2 ^ 6 + firstElement df) 0x19 wd ws) :
    decode? w = some (.splat (firstElement df) wd ws) := by
  have element_lt := firstElement_lt df
  have element : field w 16 6 = firstElement df := by
    simp only [field, word, vectorWord, vectorMajor]
    omega
  obtain ⟨vector, minor, top, source, target⟩ := read_vectorWord word (by omega) (by decide)
  have other : 2 ^ 6 + firstElement df ≠ 0xBE := by omega
  have layout : (0x19 : Nat) ≠ 0x1E ∧ (0x19 : Nat) ≠ 0x09 := by decide
  simp only [vector, decodeVector?, minor, layout, if_false, if_true, top, other, element, source,
    target]

theorem decode?_move (word : w = vectorWord 0xBE 0x19 wd ws) : decode? w = some (.move wd ws) := by
  obtain ⟨vector, minor, top, source, target⟩ := read_vectorWord word (by decide) (by decide)
  have layout : (0x19 : Nat) ≠ 0x1E ∧ (0x19 : Nat) ≠ 0x09 := by decide
  simp only [vector, decodeVector?, minor, layout, if_false, if_true, top, source, target]

theorem decode?_access {store : Bool} {df : Format} {offset : Int} {m : Nat} (least : -512 ≤ offset)
    (most : offset ≤ 511) (kind : m = (8 + store.toNat) * 4 + df.code)
    (word : w = vectorWord (offset % 1024).toNat m wd ws) :
    decode? w = some (.access store df wd ws offset) := by
  have df_lt := df.code_lt
  have store_lt := store.toNat_lt
  have format : field w 0 2 = df.code := by
    simp only [field, word, vectorWord, vectorMajor]
    omega
  obtain ⟨vector, minor, top, source, target⟩ := read_vectorWord word (by omega) (by omega)
  have layout : m ≠ 0x1E ∧ m ≠ 0x09 ∧ m ≠ 0x19 := by omega
  have float : ¬ (m = 0x1A ∨ m = 0x1B ∨ m = 0x1C) := by omega
  have upper : m / 4 = 8 + store.toNat := by omega
  have access : 8 + store.toNat = 8 ∨ 8 + store.toNat = 9 := by omega
  have signed : Int.bmod ((offset % 1024).toNat : Int) 1024 = offset := by
    rw [Int.toNat_of_nonneg (Int.emod_nonneg offset (by decide))]
    refine (Int.emod_bmod offset 1024).trans (Int.bmod_eq_of_le ?_ ?_) <;> omega
  simp only [vector, decodeVector?, minor, layout, float, upper, access, if_false, if_true, format,
    top, signed, source, target, Format.ofCode_code]
  cases store <;> rfl

end

/-! ## Branches and general instructions -/

theorem decode?_branch {w : Nat} {op : BranchOp} {wt : Num} {offset : UInt16}
    (word : w = branchMajor + op.code * 2 ^ 21 + wt.val * 2 ^ 16 + offset.toNat) :
    decode? w = some (.branch op wt offset) := by
  have op_lt := op.code_lt
  have offset_lt := offset.toNat_lt
  have major : field w 26 6 = 0x11 := by
    simp only [field, word, branchMajor]
    omega
  have operation : field w 21 5 = op.code := by
    simp only [field, word, branchMajor]
    omega
  have distance : field w 0 16 = offset.toNat := by
    simp only [field, word, branchMajor]
    omega
  have tested : numAt w 16 = wt := by
    apply numAt_eq
    simp only [field, word, branchMajor]
    omega
  have nonzero : w ≠ 0 := by
    simp only [word, branchMajor]
    omega
  have vector : (0x11 : Nat) ≠ 0x1E := by decide
  simp only [decode?, nonzero, major, vector, if_false, if_true, operation, distance, tested,
    BranchOp.find?_code, Option.map_some, UInt16.ofNat_toNat]

theorem decode?_special {w : Nat} {op : Special} {rd rs rt : Num} {count : Nat} (below : count < 32)
    (word : w = rs.val * 2 ^ 21 + rt.val * 2 ^ 16 + rd.val * 2 ^ 11 + count * 2 ^ 6 + op.code)
    (nonzero : w ≠ 0) :
    decode? w = some (.special op rd rs rt count) := by
  have op_lt := op.code_other.1
  have major : field w 26 6 = 0 := by
    simp only [field, word]
    omega
  have operation : field w 0 6 = op.code := by
    simp only [field, word]
    omega
  have shift : field w 6 5 = count := by
    simp only [field, word]
    omega
  have target : numAt w 11 = rd := by
    apply numAt_eq
    simp only [field, word]
    omega
  have first : numAt w 21 = rs := by
    apply numAt_eq
    simp only [field, word]
    omega
  have second : numAt w 16 = rt := by
    apply numAt_eq
    simp only [field, word]
    omega
  have others : (0 : Nat) ≠ 0x1E ∧ (0 : Nat) ≠ 0x11 := by decide
  simp only [decode?, nonzero, major, others, if_false, if_true, operation, shift, target, first,
    second, Special.find?_code, Option.map_some]

theorem decode?_imm {w : Nat} {op : ImmOp} {rt rs : Num} {value : UInt16}
    (word : w = op.code * 2 ^ 26 + rs.val * 2 ^ 21 + rt.val * 2 ^ 16 + value.toNat) :
    decode? w = some (.imm op rt rs value) := by
  obtain ⟨op_lt, special, vector, branch⟩ := op.code_major
  have value_lt := value.toNat_lt
  have nonzero : w ≠ 0 := by omega
  have major : field w 26 6 = op.code := by
    simp only [field, word]
    clear vector branch
    omega
  have low : field w 0 16 = value.toNat := by
    simp only [field, word]
    clear vector branch
    omega
  have first : numAt w 21 = rs := by
    apply numAt_eq
    simp only [field, word]
    clear vector branch
    omega
  have second : numAt w 16 = rt := by
    apply numAt_eq
    simp only [field, word]
    clear vector branch
    omega
  simp only [decode?, nonzero, major, vector, branch, special, if_false, low, first, second,
    ImmOp.find?_code, Option.map_some, UInt16.ofNat_toNat]

theorem decode?_word {i : Insn} (packed : i.Packed) (nonzero : i.word ≠ 0) :
    decode? i.word = some i := by
  cases i with
  | nop => exact absurd rfl nonzero
  | three op df wd ws wt =>
    apply decode?_three packed
    simp only [Insn.word, vectorWord]
    omega
  | float op double wd ws wt =>
    apply decode?_float
    have single : (if double then 1 else 0) = double.toNat := by cases double <;> rfl
    simp only [Insn.word, vectorWord, single]
    omega
  | vec op wd ws wt =>
    apply decode?_vec
    simp only [Insn.word, vectorWord]
    omega
  | bit op df count wd ws =>
    apply decode?_bit packed
    simp only [Insn.word, vectorWord]
    omega
  | splat element wd ws =>
    obtain ⟨df, rfl⟩ := packed
    apply decode?_splat
    have element_lt := firstElement_lt df
    simp only [Insn.word, vectorWord, Nat.mod_eq_of_lt element_lt]
    omega
  | move wd ws => exact decode?_move rfl
  | access store df wd ws offset =>
    obtain ⟨least, most⟩ := packed
    apply decode?_access least most rfl
    have kind : (if store then 0x9 else 0x8) = 8 + store.toNat := by cases store <;> rfl
    simp only [Insn.word, vectorWord, kind]
    omega
  | branch op wt offset => exact decode?_branch rfl
  | special op rd rs rt count =>
    apply decode?_special packed _ nonzero
    simp only [Insn.word, Nat.mod_eq_of_lt (show count < 32 from packed)]
  | imm op rt rs value => exact decode?_imm rfl

theorem word_lt (i : Insn) : i.word < 2 ^ 32 := by
  cases branch : i.isBranch with
  | false => exact (transfers_word branch).1
  | true =>
    cases i with
    | branch op wt offset =>
      have op_lt := op.code_lt
      have offset_lt := offset.toNat_lt
      simp only [Insn.word, branchMajor]
      omega
    | imm op rt rs value =>
      have op_lt := op.code_major.1
      have value_lt := value.toNat_lt
      simp only [Insn.word]
      omega
    | _ => cases branch

/-- A patched branch is the word of the branch over the new distance. -/
theorem word_leading {i : Insn} (branch : i.isBranch) (offset : UInt16) :
    (i.leading offset).word = i.word / 2 ^ 16 * 2 ^ 16 + offset.toNat := by
  cases i with
  | branch op wt old =>
    have old_lt := old.toNat_lt
    simp only [Insn.leading, Insn.word, branchMajor]
    omega
  | imm op rt rs old =>
    have old_lt := old.toNat_lt
    simp only [Insn.leading, Insn.word]
    omega
  | _ => cases branch

/-! ## Texts -/

/-- A name that begins with something other than a dot. -/
def Lettered (name : String) : Prop := ∃ c rest, name.toList = c :: rest ∧ c ≠ '.'

theorem Lettered.append {name : String} (lettered : Lettered name) (more : String) :
    Lettered (name ++ more) := by
  obtain ⟨c, rest, start, plain⟩ := lettered
  exact ⟨c, rest ++ more.toList, by rw [String.toList_append, start, List.cons_append], plain⟩

/-- A named line is neither an empty slot nor a number. -/
theorem Lettered.written {name : String} (lettered : Lettered name) (operands : List String) :
    line name operands ≠ "nop" ∧ ¬ ".word".toList <+: (line name operands).toList := by
  have split : (line name operands).toList
      = name.toList ++ ' ' :: (", ".intercalate operands).toList := by
    simp [line]
  constructor
  · intro same
    have blank : ' ' ∈ "nop".toList := by
      rw [← same, split]
      simp
    exact absurd blank (by decide)
  · intro numbered
    obtain ⟨c, rest, start, plain⟩ := lettered
    rw [split, start, List.cons_append] at numbered
    exact plain (List.cons_prefix_cons.1 numbered).1.symm

theorem text_named {i : Insn} (packed : i.Packed) :
    i.text ≠ "nop" ∧ ¬ ".word".toList <+: i.text.toList := by
  cases i with
  | nop => exact packed.elim
  | three op df wd ws wt =>
    have name : Lettered op.name := by
      cases op <;> first | exact ⟨_, _, rfl, by decide⟩ | exact absurd rfl packed
    exact ((name.append ".").append df.letter).written _
  | float op double wd ws wt =>
    have name : Lettered op.name := by cases op <;> exact ⟨_, _, rfl, by decide⟩
    exact ((name.append ".").append _).written _
  | vec op wd ws wt =>
    have name : Lettered op.name := by cases op <;> exact ⟨_, _, rfl, by decide⟩
    exact name.written _
  | bit op df count wd ws =>
    have name : Lettered op.name := by cases op <;> exact ⟨_, _, rfl, by decide⟩
    exact ((name.append ".").append df.letter).written _
  | splat element wd ws => exact Lettered.written ⟨_, _, rfl, by decide⟩ _
  | move wd ws => exact Lettered.written ⟨_, _, rfl, by decide⟩ _
  | access store df wd rs offset =>
    have name : Lettered (if store then "st." else "ld.") := by
      cases store <;> exact ⟨_, _, rfl, by decide⟩
    exact (name.append df.letter).written _
  | branch op wt offset =>
    have name : Lettered op.name := by cases op <;> exact ⟨_, _, rfl, by decide⟩
    exact name.written _
  | special op rd rs rt count =>
    have name : Lettered op.name := by cases op <;> exact ⟨_, _, rfl, by decide⟩
    cases shift : op.isShift with
    | false =>
      simp only [Insn.text, shift, Bool.false_eq_true, if_false]
      exact name.written _
    | true =>
      simp only [Insn.text, shift, if_true]
      exact name.written _
  | imm op rt rs value =>
    have name : Lettered op.name := by cases op <;> exact ⟨_, _, rfl, by decide⟩
    cases op <;> exact name.written _

theorem wordText_eq {w : Nat} {i : Insn} (read : decode? w = some i) : wordText w = i.text := by
  rw [wordText, read]

theorem packed_leading {i : Insn} (packed : i.Packed) (offset : UInt16) : (i.leading offset).Packed := by
  cases i <;> exact packed

theorem isBranch_leading (i : Insn) (offset : UInt16) : (i.leading offset).isBranch = i.isBranch := by
  cases i with
  | imm op rt rs value => cases op <;> rfl
  | _ => rfl

theorem word_ne_zero {i : Insn} (branch : i.isBranch) : i.word ≠ 0 := by
  cases i with
  | branch op wt offset =>
    simp only [Insn.word, branchMajor]
    omega
  | imm op rt rs value =>
    have major := op.code_major
    simp only [Insn.word]
    omega
  | _ => cases branch

/-- Disassembly inverts packing: a word that is put together from fields in their ranges is read and
written as its instruction, by its name and never as a number; a branch stays readable over every
distance that is patched into it; and different instructions have different words. -/
theorem disassembly_inverts_packing :
    (∀ i : Insn, i.Packed → i.word ≠ 0 →
      i.word < 2 ^ 32 ∧ decode? i.word = some i ∧ wordText i.word = i.text ∧
        i.text ≠ "nop" ∧ ¬ ".word".toList <+: i.text.toList) ∧
    (∀ (i : Insn) (offset : UInt16), i.Packed → i.isBranch →
      decode? (i.word / 2 ^ 16 * 2 ^ 16 + offset.toNat) = some (i.leading offset) ∧
        wordText (i.word / 2 ^ 16 * 2 ^ 16 + offset.toNat) = (i.leading offset).text) ∧
    ∀ i j : Insn, i.Packed → j.Packed → i.word ≠ 0 → i ≠ j → i.word ≠ j.word := by
  refine ⟨?_, ?_, ?_⟩
  · intro i packed nonzero
    have read := decode?_word packed nonzero
    exact ⟨word_lt i, read, wordText_eq read, text_named packed⟩
  · intro i offset packed branch
    have read := decode?_word (packed_leading packed offset)
      (word_ne_zero ((isBranch_leading i offset).trans branch))
    rw [← word_leading branch offset]
    exact ⟨read, wordText_eq read⟩
  · intro i j packed packed' nonzero other same
    have read := decode?_word packed nonzero
    have read' := decode?_word packed' (same ▸ nonzero)
    rw [same, read'] at read
    exact other (Option.some.inj read).symm

/-- A shift of halves, and a branch that is patched to go back by five words. -/
theorem disassembly_inverts_packing_shift :
    decode? 0x78E9F8C9 = some (.bit .srai .h 9 3 31) ∧ wordText 0x78E9F8C9 = "srai.h $w3, $w31, 9" ∧
      wordText 0x4780FFFB = "bnz.b $w0, -5" := by
  obtain ⟨-, read, text, -⟩ :=
    disassembly_inverts_packing.1 (.bit .srai .h 9 3 31) (show 9 < 16 by decide) (by decide)
  obtain ⟨-, patched⟩ := disassembly_inverts_packing.2.1 (.branch .bnzB 0 0) 0xFFFB trivial rfl
  exact ⟨read, text.trans (by decide +kernel), patched.trans (by decide +kernel)⟩

end LaneAsm.Msa
