import LaneAsm.Assembler.Basic
import LaneAsm.Proofs.Msa.Selected
import LaneAsm.Proofs.Patching
import LaneAsm.Proofs.X86.Selected

/-!
What encoders append to a buffer. Either encoder appends a primitive as pieces that do not depend on
the buffer (`Backend.Lays`): bytes, and where they are a branch a reference in their last four bytes
and the slot after them. On MIPS a piece is one word, and a word that transfers control is a branch.
-/
namespace LaneAsm

/-- Bytes that are appended together, with the label they refer to if they are a branch. -/
structure Piece where
  bytes : List UInt8
  target : Option LabelRef

/-- Whether a word is a jump or a branch, by its major opcode or as a jump to a register. -/
def Msa.transfers (w : Nat) : Bool :=
  let major := w / 2 ^ 26
  (1 ≤ major && major ≤ 7) || major == 0x11 || (0x14 ≤ major && major ≤ 0x17)
    || (major == 0 && (w % 64 == 8 || w % 64 == 9))

namespace Branching

/-- Appends a piece. The reference of a branch is its last four bytes, and its slot does nothing. -/
def put (br : Branching) (s : Buffer) (p : Piece) : Buffer :=
  let t := s.emit p.bytes
  match p.target with
  | none => t
  | some l => (t.fix ⟨br.kind, (t.size : Int) - 4, t.size, l⟩).emit (List.replicate br.slot 0)

/-- A piece in whole units that has room for its reference; a word on MIPS. -/
structure Formed (br : Branching) (p : Piece) : Prop where
  whole : br.unit ∣ p.bytes.length
  window : p.target ≠ none → 4 ≤ p.bytes.length
  word : br = .mips → p.bytes.length = 4 ∧
    (p.target = none → Msa.transfers (wordOf p.bytes).toNat = false)

end Branching

/-- A backend that lays out code in pieces. -/
structure Backend.Lays (br : Branching) (b : Backend Buffer) : Prop where
  newLabel : ∀ name s, b.newLabel name s = s.newLabel name
  finish : ∀ s, b.finish s = s.finish
  bind : ∀ l s, b.issue (.bind l) s = match s.bind l with
    | .ok s' => (.ok (), s')
    | .error e => (.error (.error e), s)
  put : ∀ p : Primitive, (∀ l, p ≠ .bind l) → ∃ (outcome : Except Fault Unit) (pieces : List Piece),
    (∀ q ∈ pieces, br.Formed q ∧ (q.target = none ∨ q.target = p.target?)) ∧
      ∀ s, b.issue p s = (outcome, pieces.foldl br.put s)

theorem Buffer.size_emit (b : Buffer) (bytes : List UInt8) :
    (b.emit bytes).size = b.size + bytes.length := by
  rw [size, emit, ← Array.length_toList, Array.toList_appendList, List.length_append]
  rfl

theorem Buffer.emit_nil (b : Buffer) : b.emit [] = b := by
  simp [emit]

/-! ## The x86 encoder -/

namespace X86

theorem append_eq_put (short : Bool) (b : Buffer) (i : Insn) :
    i.append short b = Branching.x86.put b ⟨i.bytes short, i.target?⟩ := by
  unfold Insn.append Branching.put
  cases i.target? with
  | none => rfl
  | some l => exact (Buffer.emit_nil _).symm

theorem piece_formed (short : Bool) (i : Insn) : Branching.x86.Formed ⟨i.bytes short, i.target?⟩ := by
  refine ⟨Nat.one_dvd _, fun jumps => ?_, nofun⟩
  cases i with
  | jcc cc l => show 4 ≤ 6; decide
  | jmp l => show 4 ≤ 5; decide
  | _ => exact absurd rfl jumps

theorem lays (cfg : Config) : (backend cfg).Lays .x86 where
  newLabel _ _ := rfl
  finish _ := rfl
  bind _ _ := rfl
  put p other := by
    refine ⟨(select cfg p).outcome, (select cfg p).items.map fun i =>
      ⟨i.bytes cfg.shortAddress, i.target?⟩, ?_, fun s => ?_⟩
    · refine List.forall_mem_map.2 fun i member => ⟨piece_formed _ i, ?_⟩
      rcases (select_safe cfg p).items i member with plain | ⟨l, target, jumps⟩
      · left
        cases i <;> first | rfl | exact plain.elim
      · exact .inr (jumps.trans target.symm)
    · rw [List.foldl_map]
      simp only [← append_eq_put]
      show issue cfg p s = _
      cases p <;> first | rfl | exact absurd rfl (other _)

end X86

/-! ## The MIPS encoder -/

namespace Msa

theorem Three.code_lt (op : Three) : op.code.1 < 64 ∧ op.code.2 < 6 := by cases op <;> decide

theorem Float3.code_lt (op : Float3) : op.code.1 < 64 ∧ op.code.2 < 16 := by cases op <;> decide

theorem VecOp.code_lt (op : VecOp) : op.code < 5 := by cases op <;> decide

theorem BitOp.code_lt (op : BitOp) : op.code < 3 := by cases op <;> decide

theorem Format.code_lt (df : Format) : df.code < 4 := by cases df <;> decide

theorem shiftField_lt (df : Format) (n : Nat) : shiftField df n < 128 := by
  cases df <;> simp only [shiftField] <;> omega

theorem Special.code_other (op : Special) : op.code < 64 ∧ op.code ≠ 8 ∧ op.code ≠ 9 := by
  cases op <;> decide

theorem ImmOp.code_other {op : ImmOp} (other : op ≠ .beq ∧ op ≠ .bne) :
    8 ≤ op.code ∧ op.code < 64 ∧ op.code ≠ 0x11 ∧ ¬ (0x14 ≤ op.code ∧ op.code ≤ 0x17) := by
  cases op <;> first | decide | exact absurd rfl other.1 | exact absurd rfl other.2

theorem transfers_eq_false {w : Nat} : transfers w = false ↔
    ¬ (1 ≤ w / 2 ^ 26 ∧ w / 2 ^ 26 ≤ 7) ∧ w / 2 ^ 26 ≠ 0x11 ∧
      ¬ (0x14 ≤ w / 2 ^ 26 ∧ w / 2 ^ 26 ≤ 0x17) ∧ (w / 2 ^ 26 = 0 → w % 64 ≠ 8 ∧ w % 64 ≠ 9) := by
  simp [transfers, and_assoc]

/-- A vector instruction keeps its major opcode, whatever its fields. -/
theorem transfers_vector {w rest : Nat} (split : w = vectorMajor + rest) (small : rest < 2 ^ 26) :
    w < 2 ^ 32 ∧ transfers w = false := by
  have major : w / 2 ^ 26 = 0x1E := by
    rw [split, vectorMajor]
    omega
  rw [transfers_eq_false, major, split, vectorMajor]
  omega

theorem transfers_word {i : Insn} (other : i.isBranch = false) :
    i.word < 2 ^ 32 ∧ transfers i.word = false := by
  cases i with
  | nop => decide
  | three op df wd ws wt =>
    have op_lt := op.code_lt
    have df_lt := df.code_lt
    simp only [Insn.word, Nat.add_assoc]
    exact transfers_vector rfl (by omega)
  | float op double wd ws wt =>
    have op_lt := op.code_lt
    have double_lt : (if double then 1 else 0) < 2 := by split <;> decide
    simp only [Insn.word, Nat.add_assoc]
    exact transfers_vector rfl (by omega)
  | vec op wd ws wt =>
    have op_lt := op.code_lt
    simp only [Insn.word, Nat.add_assoc]
    exact transfers_vector rfl (by omega)
  | bit op df count wd ws =>
    have op_lt := op.code_lt
    have count_lt := shiftField_lt df count
    simp only [Insn.word, Nat.add_assoc]
    exact transfers_vector rfl (by omega)
  | splat element wd ws =>
    simp only [Insn.word, Nat.add_assoc]
    exact transfers_vector rfl (by omega)
  | move wd ws =>
    simp only [Insn.word, Nat.add_assoc]
    exact transfers_vector rfl (by omega)
  | access store df wd rs offset =>
    have df_lt := df.code_lt
    have store_lt : (if store then 0x9 else 0x8) < 16 := by split <;> decide
    simp only [Insn.word, Nat.add_assoc]
    exact transfers_vector rfl (by omega)
  | branch op wt offset => cases other
  | special op rd rs rt count =>
    have function := op.code_other
    rw [transfers_eq_false, Insn.word]
    omega
  | imm op rt rs value =>
    have compare : op ≠ .beq ∧ op ≠ .bne := by
      constructor
      · rintro rfl
        cases other
      · rintro rfl
        cases other
    have code := ImmOp.code_other compare
    have value_lt := value.toNat_lt
    have major : (Insn.imm op rt rs value).word / 2 ^ 26 = op.code := by
      rw [Insn.word]
      omega
    rw [transfers_eq_false, major, Insn.word]
    omega

/-- An item as a piece. -/
def Item.piece : Item → Piece
  | .insn i => ⟨littleEndian 4 (UInt64.ofNat i.word), none⟩
  | .jump i l => ⟨littleEndian 4 (UInt64.ofNat i.word), some l⟩

theorem append_eq_put (b : Buffer) (x : Item) : x.append b = Branching.mips.put b x.piece := by
  cases x with
  | insn i => rfl
  | jump i l =>
    have size : (b.emit (littleEndian 4 (UInt64.ofNat i.word))).size = b.size + 4 := by
      rw [Buffer.size_emit, length_littleEndian]
    have site : ((b.size + 4 : Nat) : Int) - 4 = b.size := by omega
    simp only [Item.append, Branching.put, Item.piece, size, site]
    rfl

theorem piece_formed {target : Option LabelRef} {x : Item} (safe : x.Of target) :
    Branching.mips.Formed x.piece := by
  have length (w : Nat) : (littleEndian 4 (UInt64.ofNat w)).length = 4 := length_littleEndian ..
  cases x with
  | insn i =>
    obtain ⟨small, plain⟩ := transfers_word safe
    refine ⟨by rw [Item.piece, length]; decide, fun jumps => absurd rfl jumps, fun _ => ?_⟩
    refine ⟨length _, fun _ => ?_⟩
    rw [Item.piece, toNat_wordOf_littleEndian _ _ (by decide), UInt64.toNat_ofNat']
    rwa [Nat.mod_eq_of_lt (by omega), Nat.mod_eq_of_lt (by omega)]
  | jump i l =>
    refine ⟨by rw [Item.piece, length]; decide, fun _ => ?_, fun _ => ⟨length _, nofun⟩⟩
    exact Nat.le_of_eq (length _).symm

theorem lays (cfg : Config) : (backend cfg).Lays .mips where
  newLabel _ _ := rfl
  finish _ := rfl
  bind _ _ := rfl
  put p other := by
    refine ⟨(select cfg p).outcome, (select cfg p).items.map Item.piece, ?_, fun s => ?_⟩
    · refine List.forall_mem_map.2 fun x member => ?_
      have safe := (select_safe cfg p).items x member
      refine ⟨piece_formed safe, ?_⟩
      cases x with
      | insn i => exact .inl rfl
      | jump i l => exact .inr safe.2.symm
    · rw [List.foldl_map]
      simp only [← append_eq_put]
      show issue cfg p s = _
      cases p <;> first | rfl | exact absurd rfl (other _)

end Msa

end LaneAsm
