import LaneAsm.Msa.Backend
import LaneAsm.Proofs.Msa.Words

/-!
What the general instructions of MIPS do. Registers have `n` bits, 32 or 64 by the processor. An
operation on words takes sign-extended words and gives one; what it does to other values is not
defined, and then there is no result. Code is executed word by word, as it is decoded (`execute?`).
What the encoder appends to a buffer is executed as the instructions that it selected
(`code_foldl`, `execute?_insns`).
-/
namespace LaneAsm.Msa

/-! ## Registers -/

/-- The general registers, the first of which is always zero. -/
structure Gprs (n : Nat) where
  val : Num → BitVec n
  zero : val 0 = 0#n

namespace Gprs

variable {n : Nat}

/-- Writes a register; a value written to the first one is lost. -/
def set (r : Gprs n) (i : Num) (v : BitVec n) : Gprs n where
  val j := if j = i ∧ j ≠ 0 then v else r.val j
  zero := by simp [r.zero]

theorem val_set_self (r : Gprs n) {i : Num} (other : i ≠ 0) (v : BitVec n) :
    (r.set i v).val i = v := by simp [set, other]

theorem val_set_of_ne (r : Gprs n) {i j : Num} (apart : j ≠ i) (v : BitVec n) :
    (r.set i v).val j = r.val j := by simp [set, apart]

end Gprs

/-! ## Instructions -/

section
variable {n : Nat}

/-- A register that holds a sign-extended word. -/
def IsWord (x : BitVec n) : Prop := (x.setWidth 32).signExtend n = x

instance (x : BitVec n) : Decidable (IsWord x) := inferInstanceAs (Decidable (_ = _))

/-- The result of an operation on words. It is defined where the operands are words. -/
def wordwise (operands : List (BitVec n)) (result : BitVec 32) : Option (BitVec n) :=
  if ∀ x ∈ operands, IsWord x then some (result.signExtend n) else none

/-- The result of an operation on doublewords, which processors of 64 bits have. -/
def doublewise (result : BitVec n) : Option (BitVec n) := if n = 64 then some result else none

/-- The result of an operation on two registers. -/
def Special.eval? (op : Special) (count : Nat) (a b : BitVec n) : Option (BitVec n) :=
  match op with
  | .sll => wordwise [] (b.setWidth 32 <<< count)
  | .srl => wordwise [b] (b.setWidth 32 >>> count)
  | .sra => wordwise [b] ((b.setWidth 32).sshiftRight count)
  | .addu => wordwise [a, b] (a.setWidth 32 + b.setWidth 32)
  | .subu => wordwise [a, b] (a.setWidth 32 - b.setWidth 32)
  | .and => some (a &&& b)
  | .or => some (a ||| b)
  | .xor => some (a ^^^ b)
  | .slt => some (if a.slt b then 1 else 0)
  | .sltu => some (if a.ult b then 1 else 0)
  | .daddu => doublewise (a + b)
  | .dsubu => doublewise (a - b)
  | .dsll => doublewise (b <<< count)
  | .dsrl => doublewise (b >>> count)
  | .dsra => doublewise (b.sshiftRight count)
  | .dsll32 => doublewise (b <<< (count + 32))
  | .dsrl32 => doublewise (b >>> (count + 32))
  | .dsra32 => doublewise (b.sshiftRight (count + 32))

/-- The result of an operation on a register and an immediate. Loads and stores are left out. -/
def ImmOp.eval? (op : ImmOp) (value : BitVec 16) (a : BitVec n) : Option (BitVec n) :=
  match op with
  | .addiu => wordwise [a] (a.setWidth 32 + value.signExtend 32)
  | .daddiu => doublewise (a + value.signExtend n)
  | .andi => some (a &&& value.setWidth n)
  | .ori => some (a ||| value.setWidth n)
  | .xori => some (a ^^^ value.setWidth n)
  | .lui => wordwise [] (value ++ 0#16)
  | _ => none

namespace Insn

/-- The registers after an instruction that does not branch. -/
def exec? (i : Insn) (r : Gprs n) : Option (Gprs n) :=
  match i with
  | .nop => some r
  | .special op rd rs rt count => (op.eval? count (r.val rs) (r.val rt)).map (r.set rd)
  | .imm op rt rs value => (op.eval? value.toBitVec (r.val rs)).map (r.set rt)
  | _ => none

/-- Whether a branch is taken. -/
def taken? (i : Insn) (r : Gprs n) : Option Bool :=
  match i with
  | .imm .beq rt rs _ => some (r.val rs == r.val rt)
  | .imm .bne rt rs _ => some (r.val rs != r.val rt)
  | _ => none

end Insn

/-- The registers after some instructions, and whether a branch has left them. The instruction after a
branch is executed before the branch leaves. -/
def run : List Insn → Gprs n → Option (Gprs n × Bool)
  | [], r => some (r, false)
  | i :: is, r =>
    match i.taken? r, is with
    | none, is => (i.exec? r).bind (run is)
    | some _, [] => none
    | some taken, slot :: is =>
      (slot.exec? r).bind fun r => if taken then some (r, true) else run is r

/-- The registers after the words of some code. -/
def execute? (code : List UInt8) (r : Gprs n) : Option (Gprs n × Bool) :=
  ((words code).mapM decode?).bind (run · r)

theorem taken?_eq_none {i : Insn} {r r' : Gprs n} (next : i.exec? r = some r') : i.taken? r = none := by
  cases i with
  | imm op rt rs value => cases op <;> first | rfl | cases next
  | _ => rfl

theorem run_cons {i : Insn} {r r' : Gprs n} (next : i.exec? r = some r') (is : List Insn) :
    run (i :: is) r = run is r' := by
  rw [run, next]
  · rfl
  · exact taken?_eq_none next

/-- A branch with nothing to do in its slot changes no register. -/
theorem run_branch {i : Insn} {r : Gprs n} {taken : Bool} (decided : i.taken? r = some taken) :
    run [i, .nop] r = some (r, taken) := by
  rw [run.eq_def]
  simp only [decided]
  cases taken <;> rfl

end

/-! ## Code -/

/-- The bytes of an instruction. -/
def Insn.bytes (i : Insn) : List UInt8 := littleEndian 4 (UInt64.ofNat i.word)

/-- The instructions of an item. -/
def Item.insns : Item → List Insn
  | .insn i => [i]
  | .jump i _ => [i, .nop]

theorem code_foldl (items : List Item) (b : Buffer) :
    (items.foldl Item.append b).code.toList =
      b.code.toList ++ (items.flatMap Item.insns).flatMap Insn.bytes := by
  induction items generalizing b with
  | nil => simp
  | cons x items ih =>
    rw [List.foldl_cons, ih]
    cases x with
    | insn i => simp [Item.append, Item.insns, Buffer.emitWord, Buffer.emit, Insn.bytes]
    | jump i l =>
      simp [Item.append, Item.insns, Buffer.emitWord, Buffer.emit, Buffer.fix, Insn.bytes]

theorem words_bytes (i : Insn) (rest : List UInt8) : words (i.bytes ++ rest) = i.word :: words rest := by
  have small := word_lt i
  have word : (UInt64.ofNat i.word).toNat = i.word := by
    rw [UInt64.toNat_ofNat']
    omega
  have value : littleEndian 4 (UInt64.ofNat i.word) ++ rest =
      (UInt64.ofNat i.word).toUInt8 :: (UInt64.ofNat i.word >>> 8).toUInt8 ::
        (UInt64.ofNat i.word >>> 8 >>> 8).toUInt8 ::
        (UInt64.ofNat i.word >>> 8 >>> 8 >>> 8).toUInt8 :: rest := rfl
  rw [Insn.bytes, value, words]
  congr 1
  simp only [UInt64.toNat_toUInt8, UInt64.toNat_shiftRight, word]
  simp only [show (8 : UInt64).toNat % 64 = 8 from rfl, Nat.shiftRight_eq_div_pow]
  omega

/-- Code that was made from readable instructions is executed as these. -/
theorem execute?_insns {n : Nat} {is : List Insn} (readable : ∀ i ∈ is, decode? i.word = some i)
    (r : Gprs n) : execute? (is.flatMap Insn.bytes) r = run is r := by
  have decoded : (words (is.flatMap Insn.bytes)).mapM decode? = some is := by
    induction is with
    | nil => rfl
    | cons i is ih =>
      have rest := ih fun j later => readable j (List.mem_cons_of_mem i later)
      rw [List.flatMap_cons, words_bytes, List.mapM_cons, readable i List.mem_cons_self, rest]
      rfl
  rw [execute?, decoded]
  rfl

end LaneAsm.Msa
