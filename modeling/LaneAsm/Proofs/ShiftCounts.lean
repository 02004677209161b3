import LaneAsm.Proofs.LaneArithmetic
import LaneAsm.Proofs.Msa.BaseSimulation
import LaneAsm.Proofs.X86.Counts

/-!
Shift counts everywhere. An immediate count is cut to a byte or to a word and masked by the encoders,
and masked lane by lane in the reference machine. All of them come to the immediate modulo the lane
width, or modulo the width of base registers where one of these is shifted. Main statement:
`shift_counts_agree`.
-/
namespace LaneAsm

/-! ## Counts in MIPS words -/

namespace Msa

/-- The amount that an instruction shifts by; the forms for large counts add 32 to theirs. -/
def Insn.amount? : Insn → Option Nat
  | .bit _ _ count _ _ => some count
  | .special op _ _ _ count =>
    match op with
    | .sll | .srl | .sra | .dsll | .dsrl | .dsra => some count
    | .dsll32 | .dsrl32 | .dsra32 => some (count + 32)
    | _ => none
  | _ => none

/-- The word of an item; the slot after a branch is none of its own. -/
def Item.word : Item → Nat
  | .insn i | .jump i _ => i.word

/-- The shift amounts in the words of a primitive. -/
def heldCounts (cfg : Config) (p : Primitive) : List Nat :=
  (select cfg p).items.filterMap fun i => (decode? i.word).bind Insn.amount?

/-- A primitive is encoded, and its words hold one shift amount. -/
def HoldsCount (cfg : Config) (p : Primitive) (n : Nat) : Prop :=
  (select cfg p).outcome = .ok () ∧ heldCounts cfg p = [n]

theorem HoldsCount.of_select {cfg : Config} {p : Primitive} {i : Insn} {n : Nat}
    (selected : select cfg p = put i) (packed : i.Packed) (nonzero : i.word ≠ 0)
    (amount : i.amount? = some n) : HoldsCount cfg p n := by
  rw [HoldsCount, heldCounts, selected]
  refine ⟨rfl, List.filterMap_cons_some ?_⟩
  rw [Item.word, decode?_word packed nonzero]
  exact amount

theorem toNat_emod_lt {bits : Nat} (pos : 0 < bits) (x : Int) : (x % bits).toNat < bits := by
  have := Int.emod_lt_of_pos x (Int.natCast_pos.2 pos)
  omega

theorem bits_ofBits {bits : Nat} (width : bits = 8 ∨ bits = 16 ∨ bits = 32 ∨ bits = 64) :
    (Format.ofBits bits).bits = bits := by
  rcases width with rfl | rfl | rfl | rfl <;> rfl

/-- The word of a shift by an immediate holds the immediate modulo the lane width. -/
theorem holds_shift (cfg : Config) (op : Op) {e : Elem} (valid : e.valid = true) {dst src : Reg}
    (into : dst.InFile 32) (source : src.InFile 32) (c : Imm) :
    HoldsCount cfg (.shift op e dst src (.imm c)) (c.value % e.bits).toNat := by
  obtain ⟨d, first⟩ := vectorNum_ok into
  obtain ⟨s, second⟩ := vectorNum_ok source
  have width := Elem.bits_of_valid valid
  have count : (UInt32.ofInt c.value &&& UInt32.ofInt ((e.bits : Int) - 1)).toNat =
      (c.value % e.bits).toNat :=
    (toNat_maskedCount width c.value).trans (toNat_ofInt_mod width c.value)
  have below : (c.value % e.bits).toNat < (Format.ofBits e.bits).bits := by
    rw [bits_ofBits width]
    exact toNat_emod_lt (Elem.bits_pos valid) c.value
  have selected : select cfg (.shift op e dst src (.imm c)) =
      put (.bit (if op = .shr then if e.isSigned then .srai else .srli else .slli)
        (.ofBits e.bits) (c.value % e.bits).toNat d s) := by
    rw [select, selectShift, first, second, ← count]
    rfl
  refine .of_select selected below ?_ rfl
  simp only [Insn.word, vectorMajor]
  omega

/-- Each of the three encodings of a shift denotes the count it was chosen for. -/
theorem amount_shiftForm {cfg : Config} {narrow low high : Special} {d : Num} {n : Nat}
    (words : (Insn.special narrow d rZero d n).amount? = some n)
    (few : (Insn.special low d rZero d n).amount? = some n)
    (many : (Insn.special high d rZero d (n - 32)).amount? = some (n - 32 + 32)) :
    let form := shiftForm cfg narrow low high n
    (Insn.special form.1 d rZero d form.2).amount? = some n := by
  unfold shiftForm
  split
  · split
    · next large => exact many.trans (congrArg some (Nat.sub_add_cancel large))
    · exact few
  · exact words

/-- The word of a shift of a base register denotes the immediate modulo the width of base registers. -/
theorem holds_shiftBase {cfg : Config} {w : Nat} (target : BaseTarget cfg w) {op : Op}
    (shift : op = .shl ∨ op = .shr) (signed : Bool) {dst : Reg} (into : dst.InBase) (c : Imm) :
    HoldsCount cfg (.shiftBase op signed dst c) (c.value % cfg.baseBits).toNat := by
  obtain ⟨d, found, other⟩ : ∃ d, baseNum dst = .ok d ∧ d ≠ rZero := by
    obtain ⟨kind, index⟩ := dst
    obtain ⟨rfl, least, most⟩ := into
    obtain ⟨k, rfl⟩ : ∃ k : Nat, index = k := Int.eq_ofNat_of_zero_le least
    let i : Fin 16 := ⟨k, by simp only at most; omega⟩
    exact ⟨mapped i, baseNum_base i, (mapped_ne i).1⟩
  have width := Elem.bits_of_valid (target.valid .unsigned)
  have count : (UInt32.ofInt c.value &&& UInt32.ofInt ((cfg.baseBits : Int) - 1)).toNat =
      (c.value % cfg.baseBits).toNat :=
    (target.count_eq c.value).trans (toNat_ofInt_mod width c.value)
  have below : (c.value % cfg.baseBits).toNat < cfg.baseBits :=
    toNat_emod_lt (Elem.bits_pos (target.valid .unsigned)) c.value
  have holds (narrow low high : Special)
      (selected : let form := shiftForm cfg narrow low high (c.value % cfg.baseBits).toNat
        select cfg (.shiftBase op signed dst c) = put (.special form.1 d rZero d form.2))
      (amount : let form := shiftForm cfg narrow low high (c.value % cfg.baseBits).toNat
        (Insn.special form.1 d rZero d form.2).amount? = some (c.value % cfg.baseBits).toNat) :
      HoldsCount cfg (.shiftBase op signed dst c) (c.value % cfg.baseBits).toNat := by
    refine .of_select selected (target.shiftForm_lt below narrow low high) ?_ amount
    have nonzero : d.val ≠ 0 := fun zero => other (Fin.ext zero)
    simp only [Insn.word]
    omega
  rcases shift with rfl | rfl
  · refine holds .sll .dsll .dsll32 ?_ (amount_shiftForm rfl rfl rfl)
    rw [select, selectShiftBase, found, ← count]
    rfl
  · cases signed with
    | true =>
      refine holds .sra .dsra .dsra32 ?_ (amount_shiftForm rfl rfl rfl)
      rw [select, selectShiftBase, found, ← count]
      rfl
    | false =>
      refine holds .srl .dsrl .dsrl32 ?_ (amount_shiftForm rfl rfl rfl)
      rw [select, selectShiftBase, found, ← count]
      rfl

end Msa

/-! ## Counts of the reference machine -/

namespace Lane

/-- A lane moved by `n` places: the number times or divided by a power of two, within the lane. -/
def moved (op : Op) (e : Elem) (n : Nat) (x : UInt64) : UInt64 :=
  UInt64.ofInt ((if op = .shl then value e x * 2 ^ n else value e x / 2 ^ n) % 2 ^ e.bits)

/-- A lane is shifted by its count modulo the lane width. -/
theorem eval_eq_moved {op : Op} (shift : op = .shl ∨ op = .shr) {e : Elem} (valid : e.valid = true)
    (whole : e.isFloat = false) (x y : UInt64) : eval op e x y = moved op e (y.toNat % e.bits) x := by
  have meant : meaning? op e (value e x) (value e y) (y.toNat % e.bits) =
      some (if op = .shl then value e x * 2 ^ (y.toNat % e.bits)
        else value e x / 2 ^ (y.toNat % e.bits)) := by
    rcases shift with rfl | rfl <;> rfl
  have spelled : _ % _ = _ % _ := spells_exact valid whole op x y meant
  have bounded := eval_lt valid whole op x y
  have low : ((eval op e x y).toNat : Int) % 2 ^ e.bits = (eval op e x y).toNat :=
    Int.emod_eq_of_lt (Int.natCast_nonneg _) (by exact_mod_cast bounded)
  rw [← UInt64.toNat_inj, ← Int.natCast_inj, moved, toNat_ofInt, ← spelled, low]
  exact (Int.emod_eq_of_lt (Int.natCast_nonneg _) (by exact_mod_cast UInt64.toNat_lt _)).symm

end Lane

/-- A vector with every lane moved by `n` places. -/
def Bytes.moved (op : Op) (e : Elem) (n : Nat) (v : Bytes) : Bytes :=
  .ofLanes e ((v.lanes e).map (Lane.moved op e n))

namespace Machine

/-- A step shifts every lane by the immediate modulo the lane width. -/
theorem step_shift (cfg : Config) {op : Op} (shift : op = .shl ∨ op = .shr) {e : Elem}
    (valid : e.valid = true) (whole : e.isFloat = false) {dst src : Reg} (into : dst.InFile 32)
    (c : Imm) {m : Machine} {v : Bytes} (read : m.vector src = .ok v) (split : e.bytes ∣ v.size) :
    ∃ m', m.step cfg (.shift op e dst src (.imm c)) = .ok (m', none) ∧
      m.setVector dst (v.moved op e (c.value % e.bits).toNat) = .ok m' := by
  have count := toNat_ofInt_mod (Elem.bits_of_valid valid) c.value
  have shifted : Lanes.shift? op e v (UInt64.ofInt c.value) =
      some (v.moved op e (c.value % e.bits).toNat) := by
    simp only [Lanes.shift?_eq op valid split, Lane.eval_eq_moved shift valid whole, count]
    rfl
  obtain ⟨m', written, -⟩ := setVector_writes (isSome_vectorAt? (m := m).mpr into.2)
    (v.moved op e (c.value % e.bits).toNat)
  refine ⟨m', step_eq_ok.mpr ⟨?_, rfl⟩, written⟩
  exact bind_eq_ok.mpr ⟨_, rfl, bind_eq_ok.mpr ⟨v, read,
    bind_eq_ok.mpr ⟨_, orTrap_eq_ok.mpr shifted, written⟩⟩⟩

/-- A step shifts a base register by the immediate modulo the width of base registers. -/
theorem step_shiftBase {cfg : Config} (based : Based cfg) {op : Op} (shift : op = .shl ∨ op = .shr)
    (signed : Bool) {dst : Reg} (c : Imm) {m : Machine} {x : UInt64} (read : m.base dst = .ok x) :
    let e : Elem := ⟨cfg.baseBits, if signed then .signed else .unsigned⟩
    ∃ m', m.step cfg (.shiftBase op signed dst c) = .ok (m', none) ∧
      m.setBase dst (Lane.moved op e (c.value % cfg.baseBits).toNat x) = .ok m' := by
  intro e
  have valid : e.valid = true := valid_base based _
  have whole : e.isFloat = false := by cases signed <;> rfl
  have count := toNat_ofInt_mod (Elem.bits_of_valid valid) c.value
  have shifted : Lane.eval op e x (UInt64.ofInt c.value) =
      Lane.moved op e (c.value % cfg.baseBits).toNat x := by
    rw [Lane.eval_eq_moved shift valid whole, count]
  obtain ⟨i, found, -⟩ := bind_eq_ok.mp read
  obtain ⟨m', written⟩ : ∃ m', m.setBase dst (Lane.eval op e x (UInt64.ofInt c.value)) = .ok m' :=
    ⟨_, bind_eq_ok.mpr ⟨i, found, rfl⟩⟩
  refine ⟨m', step_eq_ok.mpr ⟨bind_eq_ok.mpr ⟨x, read, written⟩, rfl⟩, ?_⟩
  rw [← shifted]
  exact written

end Machine

/-- Immediate shift counts are reduced in one way. Take a shift and an immediate. Where integer lanes
are shifted, let `n` be the immediate modulo the lane width: the x86 code holds the count `n`, whether
the shift is encoded as it stands, in halves or lane by lane; the vector word of MIPS holds the count
`n`; and a step of the reference machine moves every lane by `n` places. Where a base register is
shifted, the same holds with the immediate modulo the width of base registers. -/
theorem shift_counts_agree {op : Op} (shift : op = .shl ∨ op = .shr) (c : Imm) :
    (∀ e : Elem, e.valid = true → e.isFloat = false → ∀ (cfg : Config) (dst src : Reg),
      let n := (c.value % e.bits).toNat
      let p := Primitive.shift op e dst src (.imm c)
      (X86.Expandable cfg → dst.InFile 16 → src.InFile 16 → X86.HoldsCount cfg p n) ∧
      (dst.InFile 32 → src.InFile 32 → Msa.HoldsCount cfg p n) ∧
      (dst.InFile 32 → ∀ (m : Machine) (v : Bytes), m.vector src = .ok v → e.bytes ∣ v.size →
        ∃ m', m.step cfg p = .ok (m', none) ∧ m.setVector dst (v.moved op e n) = .ok m')) ∧
    ∀ (cfg : Config) (signed : Bool) (dst : Reg), dst.InBase →
      let n := (c.value % cfg.baseBits).toNat
      let p := Primitive.shiftBase op signed dst c
      let e : Elem := ⟨cfg.baseBits, if signed then .signed else .unsigned⟩
      (Machine.Based cfg → X86.HoldsCount cfg p n) ∧
      (∀ w, Msa.BaseTarget cfg w → Msa.HoldsCount cfg p n) ∧
      (Machine.Based cfg → ∀ (m : Machine) (x : UInt64), m.base dst = .ok x →
        ∃ m', m.step cfg p = .ok (m', none) ∧ m.setBase dst (Lane.moved op e n x) = .ok m') := by
  constructor
  · intro e valid whole cfg dst src n p
    refine ⟨fun ok into source => ?_, fun into source => ?_, fun into m v read split => ?_⟩
    · exact X86.holds_shift ok shift valid whole into source c
    · exact Msa.holds_shift cfg op valid into source c
    · exact Machine.step_shift cfg shift valid whole into c read split
  · intro cfg signed dst into n p e
    refine ⟨fun based => ?_, fun w target => ?_, fun based m x read => ?_⟩
    · exact X86.holds_shiftBase based shift signed into c
    · exact Msa.holds_shiftBase target shift signed into c
    · exact Machine.step_shiftBase based shift signed c read

/-- An immediate far past every width. Lanes of sixteen bits move by 11 places: the two halves of a
wide register on x86 hold the count, and so does the word on MIPS. A base register of 64 bits moves by
59 places, which takes the form for large counts. -/
theorem shift_counts_agree_large :
    let c : Imm := ⟨0x1234567B, .iv⟩
    let x86 := Config.x86 Level.avx1 "avx1" "256" 32 1
    let mips := Config.mips .mips64 "128" 1 64 64
    let lanes := Primitive.shift .shr .s16 (.xmm 1) (.xmm 2) (.imm c)
    let base := Primitive.shiftBase .shr true (.base 3) c
    let m : Machine := ⟨.replicate 32 (.replicate 16 0x80), .replicate 32 0x8000000000000000, #[]⟩
    (X86.HoldsCount x86 lanes 11 ∧ X86.heldCounts x86 lanes = [11, 11] ∧
      Msa.HoldsCount mips lanes 11 ∧
      ∃ m', m.step mips lanes = .ok (m', none) ∧
        m.setVector (.xmm 1) (List.replicate 8 [0xF0, 0xFF]).flatten.toArray = .ok m') ∧
    X86.HoldsCount x86 base 59 ∧ Msa.HoldsCount mips base 59 ∧
      ∃ m', m.step mips base = .ok (m', none) ∧ m.setBase (.base 3) (-16) = .ok m' := by
  intro c x86 mips lanes base m
  obtain ⟨onLanes, onBase⟩ := @shift_counts_agree .shr (.inr rfl) c
  obtain ⟨halves, -, -⟩ := onLanes .s16 rfl rfl x86 (.xmm 1) (.xmm 2)
  obtain ⟨-, word, moves⟩ := onLanes .s16 rfl rfl mips (.xmm 1) (.xmm 2)
  have dst : (Reg.xmm 1).InFile 32 := ⟨rfl, by decide, by decide⟩
  have src : (Reg.xmm 2).InFile 32 := ⟨rfl, by decide, by decide⟩
  have builtIn : x86 ∈ Catalog.standard.builtIn := by simp [x86, Catalog.standard, Catalog.ofTables]
  have held := halves (X86.expandable_builtIn x86 builtIn) ⟨rfl, by decide, by decide⟩
    ⟨rfl, by decide, by decide⟩
  obtain ⟨m₁, stepped, written⟩ := moves dst m (.replicate 16 0x80) rfl (by decide)
  have vector : Bytes.moved .shr .s16 11 (.replicate 16 0x80) =
      (List.replicate 8 [0xF0, 0xFF]).flatten.toArray := by decide
  have count : (c.value % (x86.baseBits : Int)).toNat = 59 ∧
      (c.value % (mips.baseBits : Int)).toNat = 59 := by decide
  have register : (Reg.base 3).InBase := ⟨rfl, by decide, by decide⟩
  have byte := (onBase x86 true (.base 3) register).1 (.inr rfl)
  have others := (onBase mips true (.base 3) register).2
  rw [count.1] at byte
  rw [count.2] at others
  obtain ⟨large, shifted⟩ := others
  obtain ⟨m₂, stepped', written'⟩ := shifted (.inr rfl) m 0x8000000000000000 rfl
  have value : Lane.moved .shr ⟨64, .signed⟩ 59 0x8000000000000000 = -16 := by decide
  exact ⟨⟨held, by decide +kernel, word dst src, m₁, stepped, vector ▸ written⟩, byte,
    large 64 (.mips64 rfl (.inr rfl)), m₂, stepped', value ▸ written'⟩

end LaneAsm
