import LaneAsm.Proofs.Msa.BaseSimulation

/-!
Addresses on MIPS. A memory operand is reduced to a register and an offset. The sum with an index is
made in one register that is kept for it, and a displacement that does not fit the access is added in
another, so that the registers of base values stay as they are. Sums are those of pointers: of
doublewords, or of sign-extended words (`IsPointer`). Main statement: `addresses_resolved`.
-/
namespace LaneAsm.Msa

/-! ## Pointers -/

section
variable {n : Nat} {cfg : Config}

/-- Registers have room for pointers. -/
def HasPointers (cfg : Config) (n : Nat) : Prop :=
  cfg.pointer = 32 ∧ 32 ≤ n ∨ cfg.pointer = 64 ∧ n = 64

/-- A value that can be summed as a pointer. Pointers of 32 bits are summed as words. -/
def IsPointer (cfg : Config) (x : BitVec n) : Prop := cfg.pointer = 32 → IsWord x

/-- Two values are the same address. -/
def SameAddress (cfg : Config) (x y : BitVec n) : Prop :=
  x.setWidth cfg.pointer = y.setWidth cfg.pointer

theorem isPointer_ofInt (has : HasPointers cfg n) {k : Int} (least : -2 ^ 31 ≤ k) (most : k < 2 ^ 31) :
    IsPointer cfg (BitVec.ofInt n k) := by
  intro narrow
  have wide : 32 ≤ n := by
    unfold HasPointers at has
    omega
  have number : (BitVec.ofInt 32 k).signExtend n = BitVec.ofInt n k := signExtend_ofInt least most
  rw [← number]
  exact isWord_signExtend wide _

theorem SameAddress.add (has : HasPointers cfg n) {a b x y : BitVec n} (first : SameAddress cfg a x)
    (second : SameAddress cfg b y) : SameAddress cfg (a + b) (x + y) := by
  have fits : cfg.pointer ≤ n := by
    unfold HasPointers at has
    omega
  unfold SameAddress at first second ⊢
  rw [BitVec.setWidth_add _ _ fits, BitVec.setWidth_add _ _ fits, first, second]

/-- The sum of two registers is a pointer to the sum. -/
theorem eval_addPointers (has : HasPointers cfg n) {a b : BitVec n} (first : IsPointer cfg a)
    (second : IsPointer cfg b) :
    ∃ v, (if cfg.pointer = 64 then Special.daddu else .addu).eval? 0 a b = some v ∧
      IsPointer cfg v ∧ SameAddress cfg v (a + b) := by
  rcases has with ⟨pointer, wide⟩ | ⟨pointer, rfl⟩
  · have narrow : ¬ cfg.pointer = 64 := by omega
    have left : (a.setWidth 32).signExtend n = a := first pointer
    have right : (b.setWidth 32).signExtend n = b := second pointer
    have sum := addu_signExtend wide (a.setWidth 32) (b.setWidth 32)
    rw [left, right] at sum
    rw [if_neg narrow]
    refine ⟨_, sum, fun _ => isWord_signExtend wide _, ?_⟩
    rw [SameAddress, pointer, setWidth_signExtend wide, BitVec.setWidth_add _ _ wide]
  · rw [if_pos pointer]
    refine ⟨a + b, doublewise_full _, fun narrow => ?_, rfl⟩
    omega

/-- So is the sum of a register and a short number. -/
theorem eval_addShort (has : HasPointers cfg n) {a : BitVec n} (first : IsPointer cfg a) {k : Int}
    (short : fitsShort k = true) :
    ∃ v, (if cfg.pointer = 64 then ImmOp.daddiu else .addiu).eval? (UInt16.ofInt k).toBitVec a = some v ∧
      IsPointer cfg v ∧ SameAddress cfg v (a + BitVec.ofInt n k) := by
  simp only [fitsShort, Bool.and_eq_true, decide_eq_true_eq] at short
  have number : IsPointer cfg (BitVec.ofInt n k) := isPointer_ofInt has (by omega) (by omega)
  obtain ⟨v, sum, pointer, same⟩ := eval_addPointers has first number
  refine ⟨v, ?_, pointer, same⟩
  rw [← sum, toBitVec_ofInt]
  rcases has with ⟨narrow, wide⟩ | ⟨double, -⟩
  · have other : ¬ cfg.pointer = 64 := by omega
    have word : (a.setWidth 32).signExtend n = a := first narrow
    rw [if_neg other, if_neg other, ← word]
    exact addiu_eq_addu wide _ short.1 short.2
  · rw [if_pos double, if_pos double]
    exact daddiu_eq_daddu short.1 short.2 a

end

/-! ## Operands -/

/-- The processors and what the registers of an address may hold: anything where registers have the bits
of a pointer, and sign-extended words where pointers of 32 bits are kept in registers of 64. -/
inductive Addressing (cfg : Config) (base : Fin 16) (index : Option (Fin 16)) :
    {n : Nat} → Gprs n → Prop where
  | words (pointer : cfg.pointer = 32) (r : Gprs 32) : Addressing cfg base index r
  | doublewords (pointer : cfg.pointer = 64) (r : Gprs 64) : Addressing cfg base index r
  | extended (pointer : cfg.pointer = 32) (r : Gprs 64)
      (held : ∀ i, i = base ∨ index = some i → IsWord (r.val (mapped i))) : Addressing cfg base index r

/-- The reference to memory by base registers. -/
def reference (base : Fin 16) (index : Option (Fin 16)) (disp : Disp) : Mem :=
  ⟨.base base, index.map fun i : Fin 16 => .base i, disp⟩

/-- What an index adds. -/
def indexed {n : Nat} (r : Gprs n) (index : Option (Fin 16)) : BitVec n :=
  match index with
  | some i => r.val (mapped i)
  | none => 0

section
variable {n : Nat} {cfg : Config} {r r' r'' : Gprs n} {is js : List Insn} {t : Num} {u v : BitVec n}

namespace Addressing

variable {base : Fin 16} {index : Option (Fin 16)} (target : Addressing cfg base index r)
include target

theorem hasPointers : HasPointers cfg n := by
  cases target with
  | words pointer => exact .inl ⟨pointer, by decide⟩
  | doublewords pointer => exact .inr ⟨pointer, rfl⟩
  | extended pointer => exact .inl ⟨pointer, by decide⟩

theorem isPointer {i : Fin 16} (read : i = base ∨ index = some i) : IsPointer cfg (r.val (mapped i)) := by
  cases target with
  | words pointer =>
    intro _
    rw [IsWord, BitVec.setWidth_eq, BitVec.signExtend_eq]
  | doublewords pointer =>
    intro narrow
    omega
  | extended pointer _ held =>
    intro _
    exact held i read

end Addressing

/-- Instructions that leave a pointer to an address in a register and change none but the two kept for
addresses. -/
structure Points (cfg : Config) (is : List Insn) (r r' : Gprs n) (t : Num) (v : BitVec n) : Prop
    extends Leads is r r' where
  isPointer : IsPointer cfg (r'.val t)
  here : SameAddress cfg (r'.val t) v
  others : ∀ j, j ≠ rAt → j ≠ rT8 → r'.val j = r.val j

theorem Sets.points (sets : Sets is r r' t u) (kept : t = rAt ∨ t = rT8) (pointer : IsPointer cfg u)
    (same : SameAddress cfg u v) : Points cfg is r r' t v where
  toLeads := sets.toLeads
  isPointer := by
    rw [sets.here]
    exact pointer
  here := by
    rw [sets.here]
    exact same
  others j notAt notT8 := by
    apply sets.others
    rintro rfl
    rcases kept with at_ | t8
    · exact notAt at_
    · exact notT8 t8

theorem general_base (i : Fin 16) : general (.base i) = pure (mapped i) := by
  rw [general]
  simp only [Reg.base, general?_mapped]

/-- Instructions that leave in a register what is an address together with an offset. -/
structure Resolves (cfg : Config) (is : List Insn) (r r' : Gprs n) (t : Num) (off : Int) (v : BitVec n) :
    Prop extends Leads is r r' where
  here : SameAddress cfg (r'.val t + BitVec.ofInt n off) v
  others : ∀ j, j ≠ rAt → j ≠ rT8 → r'.val j = r.val j

theorem Points.resolves (points : Points cfg is r r' t v) : Resolves cfg is r r' t 0 v where
  toLeads := points.toLeads
  here := by
    have zero : BitVec.ofInt n 0 = 0#n := BitVec.ofInt_natCast n 0
    rw [zero, BitVec.add_zero]
    exact points.here
  others := points.others

/-! ## Selection -/

/-- The second part of an address: what is left to do once the registers are summed. -/
def displaced (cfg : Config) (fits : Int → Bool) (t : Num) (disp : Int) : Selection (Num × Int) := do
  if fits disp then return (t, disp)
  if fitsShort disp then
    put (.imm (if cfg.pointer = 64 then .daddiu else .addiu) rT8 t (UInt16.ofInt disp))
    return (rT8, 0)
  .emitAll ((loadImmediate rT8 disp).map .insn)
  put (addPointers cfg rT8 rT8 t)
  return (rT8, 0)

theorem resolve_plain (cfg : Config) (fits : Int → Bool) (base : Fin 16) (disp : Disp) :
    resolve cfg fits (reference base none disp) = displaced cfg fits (mapped base) disp.value := by
  simp only [resolve, reference, general_base]
  rfl

theorem resolve_indexed (cfg : Config) (fits : Int → Bool) (base index : Fin 16) (disp : Disp) :
    resolve cfg fits (reference base (some index) disp) =
      (do
        put (addPointers cfg rAt (mapped base) (mapped index))
        displaced cfg fits rAt disp.value) := by
  simp only [resolve, reference, Option.map_some, general_base]
  rfl

section
variable {fits : Int → Bool} (has : HasPointers cfg n)
include has

/-- The displacement is left to the access where it fits, and is added otherwise. -/
theorem resolves_displaced (zero : fits 0 = true) {t : Num} (apart : t ≠ rT8)
    (pointer : IsPointer cfg (r.val t)) {d : Int} (least : 0 ≤ d) (most : d < 2 ^ 31) :
    ∃ is s off r', displaced cfg fits t d = ⟨is.map .insn, .ok (s, off)⟩ ∧ fits off = true ∧
      Resolves cfg is r r' s off (r.val t + BitVec.ofInt n d) := by
  unfold displaced
  by_cases near : fits d = true
  · rw [if_pos near]
    exact ⟨[], t, d, r, rfl, near, ⟨List.forall_mem_nil _, fun _ => rfl⟩, rfl, fun _ _ _ => rfl⟩
  rw [if_neg near]
  by_cases short : fitsShort d = true
  · obtain ⟨v, sum, pointer', same⟩ := eval_addShort has pointer short
    have sets := Sets.imm (t := rT8) (by decide) sum
    rw [if_pos short]
    exact ⟨_, rT8, 0, _, rfl, zero, (sets.points (.inr rfl) pointer' same).resolves⟩
  · have wide : 32 ≤ n := by
      unfold HasPointers at has
      omega
    obtain ⟨r₁, loaded⟩ := sets_loadImmediate (t := rT8) wide (by decide) (by omega) most r
    have number : IsPointer cfg (r₁.val rT8) := by
      rw [loaded.here]
      exact isPointer_ofInt has (by omega) most
    have other : IsPointer cfg (r₁.val t) := by
      rw [loaded.others t apart]
      exact pointer
    obtain ⟨v, sum, pointer', same⟩ := eval_addPointers has number other
    rw [loaded.here, loaded.others t apart, BitVec.add_comm] at same
    have sets := loaded.trans (Sets.special (t := rT8) (by decide) (by decide) sum)
    rw [if_neg short]
    refine ⟨_, rT8, 0, _, ?_, zero, (sets.points (.inr rfl) pointer' same).resolves⟩
    rw [List.map_append]
    rfl

end

theorem mapped_ne_kept : ∀ i, mapped i ≠ rAt ∧ mapped i ≠ rT8 := by decide

/-- Every reference is reduced to a register and an offset that the access takes. -/
theorem resolves_reference (fits : Int → Bool) {base : Fin 16} {index : Option (Fin 16)}
    (target : Addressing cfg base index r) (zero : fits 0 = true) {disp : Disp} (least : 0 ≤ disp.value)
    (most : disp.value < 2 ^ 31) :
    ∃ is s off r', resolve cfg fits (reference base index disp) = ⟨is.map .insn, .ok (s, off)⟩ ∧
      fits off = true ∧ Resolves cfg is r r' s off
        (r.val (mapped base) + indexed r index + BitVec.ofInt n disp.value) := by
  have has := target.hasPointers
  cases index with
  | none =>
    rw [resolve_plain, indexed]
    simp only [BitVec.ofNat_eq_ofNat, BitVec.add_zero]
    exact resolves_displaced has zero (mapped_ne_kept base).2 (target.isPointer (.inl rfl)) least most
  | some index =>
    obtain ⟨v, sum, pointer, same⟩ := eval_addPointers has (target.isPointer (.inl rfl))
      (target.isPointer (.inr rfl))
    have summed := (Sets.special (t := rAt) (by decide) (by decide) sum).points (.inl rfl) pointer same
    obtain ⟨is, s, off, r', selected, fit, resolved⟩ :=
      resolves_displaced has zero (by decide) summed.isPointer least most
    refine ⟨_, s, off, r', ?_, fit, summed.toLeads.append resolved.toLeads, ?_, ?_⟩
    · rw [resolve_indexed, selected, List.map_append]
      rfl
    · exact resolved.here.trans (summed.here.add has rfl)
    · intro j notAt notT8
      rw [resolved.others j notAt notT8, summed.others j notAt notT8]

/-- What is executed in front of an access. A register and an offset then give the address, and the
registers of base values are what they were. -/
structure Prepared (cfg : Config) (is : List Insn) (r r' : Gprs n) (t : Num) (off : Int) (v : BitVec n) :
    Prop where
  executed : execute? (is.flatMap Insn.bytes) r = some (r', false)
  address : SameAddress cfg (r'.val t + BitVec.ofInt n off) v
  others : ∀ j, j ≠ rAt → j ≠ rT8 → r'.val j = r.val j
  bases : ∀ i, r'.val (mapped i) = r.val (mapped i)

theorem Resolves.prepared {off : Int} (resolved : Resolves cfg is r r' t off v) :
    Prepared cfg is r r' t off v where
  executed := by
    have ran := resolved.runs []
    rw [List.append_nil] at ran
    rw [execute?_insns resolved.readable, ran]
    rfl
  address := resolved.here
  others := resolved.others
  bases i := resolved.others _ (mapped_ne_kept i).1 (mapped_ne_kept i).2

/-- Addresses are exact. What is executed in front of the access to a vector or to a general register
leaves a register and an offset within the range of the access, which give the sum of the base, the
index and the displacement in the bits of a pointer. Only the two registers kept for addresses
change. -/
theorem addresses_resolved {base : Fin 16} {index : Option (Fin 16)}
    (target : Addressing cfg base index r) {disp : Disp} (least : 0 ≤ disp.value) (most : disp.value < 2 ^ 31) :
    let m := reference base index disp
    let address := r.val (mapped base) + indexed r index + BitVec.ofInt n disp.value
    (∀ store w, ∃ is rs off r',
      accessVector cfg store w m = ⟨(is ++ [.access store .w w rs off]).map .insn, .ok ()⟩ ∧
      -512 ≤ off ∧ off ≤ 511 ∧ Prepared cfg is r r' rs (4 * off) address) ∧
    ∀ op rt, ∃ is rs off r',
      accessGeneral cfg op rt m = ⟨(is ++ [.imm op rt rs (UInt16.ofInt off)]).map .insn, .ok ()⟩ ∧
      -2 ^ 15 ≤ off ∧ off < 2 ^ 15 ∧ Prepared cfg is r r' rs off address := by
  intro m address
  constructor
  · intro store w
    obtain ⟨is, rs, off, r', selected, fit, resolved⟩ :=
      resolves_reference fitsVector target (by decide) least most
    simp only [fitsVector, Bool.and_eq_true, decide_eq_true_eq, beq_iff_eq] at fit
    have whole : 4 * (off / 4) = off := by omega
    refine ⟨is, rs, off / 4, r', ?_, fit.1.2, fit.2, ?_⟩
    · rw [accessVector, selected, List.map_append]
      rfl
    · rw [whole]
      exact resolved.prepared
  · intro op rt
    obtain ⟨is, rs, off, r', selected, fit, resolved⟩ :=
      resolves_reference fitsShort target (by decide) least most
    simp only [fitsShort, Bool.and_eq_true, decide_eq_true_eq] at fit
    refine ⟨is, rs, off, r', ?_, fit.1, fit.2, resolved.prepared⟩
    rw [accessGeneral, selected, List.map_append]
    rfl

end

theorem addresses_resolved_far :
    let cfg := Config.mips .mips64 "128" 1 32 32
    let r := ((⟨fun _ => 0, rfl⟩ : Gprs 64).set (mapped 5) (-16)).set (mapped 4) 0x10000000000
    let disp : Disp := ⟨0x18004, .dv⟩
    let address := r.val (mapped 5) + indexed r (some 5) + BitVec.ofInt 64 disp.value
    (Addressing cfg 5 (some 5) r ∧ 0 ≤ disp.value ∧ disp.value < 2 ^ 31 ∧ address = 0x17FE4) ∧
    (∃ is rs off r', accessVector cfg true 3 (reference 5 (some 5) disp) =
        ⟨(is ++ [.access true .w 3 rs off]).map .insn, .ok ()⟩ ∧
      -512 ≤ off ∧ off ≤ 511 ∧ Prepared cfg is r r' rs (4 * off) address) ∧
    ∃ is rs off r', accessGeneral cfg .sw (mapped 5) (reference 5 (some 5) disp) =
        ⟨(is ++ [.imm .sw (mapped 5) rs (UInt16.ofInt off)]).map .insn, .ok ()⟩ ∧
      -2 ^ 15 ≤ off ∧ off < 2 ^ 15 ∧ Prepared cfg is r r' rs off address := by
  intro cfg r disp address
  have target : Addressing cfg 5 (some 5) r := .extended rfl r (by decide)
  have least : 0 ≤ disp.value := by decide
  have most : disp.value < 2 ^ 31 := by decide
  obtain ⟨vectors, generals⟩ := addresses_resolved target least most
  exact ⟨⟨target, least, most, by decide⟩, vectors true 3, generals .sw (mapped 5)⟩

end LaneAsm.Msa
