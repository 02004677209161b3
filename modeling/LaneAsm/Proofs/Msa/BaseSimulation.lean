import LaneAsm.Proofs.Msa.BaseValue
import LaneAsm.Proofs.Msa.Failing

/-!
The code for base operations does on MIPS what the reference machine does. The base registers are held
in general registers, sign-extended (`Holds`). A primitive that writes one of them from registers and
immediates is issued as code that writes the same value and leaves the others alone (`Simulates`). A
jump on two base values is issued as code that branches when the condition holds
(`executes_compareJump`). Main statement: `base_simulated`.
-/
namespace LaneAsm.Msa

/-! ## Registers -/

/-- The general register of a base register. -/
def mapped (i : Fin 16) : Num := baseFile.get i

/-- The place of a base register in the reference machine. -/
def place (i : Fin 16) : Fin 32 := i.castLE (by decide)

theorem mapped_injective : ∀ i j, mapped i = mapped j → i = j := by decide

theorem mapped_ne : ∀ i, mapped i ≠ rZero ∧ mapped i ≠ rAt ∧ mapped i ≠ rT9 := by decide

theorem general?_mapped (i : Fin 16) : general? (i : Nat) = some (mapped i) := by
  rw [general?, if_pos (by omega), Int.toNat_natCast]
  exact List.getElem?_eq_getElem i.isLt

theorem baseNum_base (i : Fin 16) : baseNum (.base i) = .ok (mapped i) := by
  rw [baseNum]
  simp only [Reg.base, general?_mapped]

theorem index_base (i : Fin 16) : Machine.index (.base i) = .ok (place i) := by
  have inside : 0 ≤ (Reg.base i).index ∧ (Reg.base i).index < 32 := by
    simp only [Reg.base]
    omega
  exact dif_pos inside

/-- Every base register's value is held in its general register. -/
def Holds {n : Nat} (cfg : Config) (m : Machine) (r : Gprs n) : Prop :=
  ∀ i, r.val (mapped i) = extended cfg.baseBits n (m.bases.get (place i))

/-- The machine after a write to a base register. -/
def written (m : Machine) (d : Fin 16) (v : UInt64) : Machine :=
  { m with bases := m.bases.set (place d) v }

/-- Instructions that can be read back and lead from some registers to others. -/
structure Leads {n : Nat} (is : List Insn) (r r' : Gprs n) : Prop where
  readable : ∀ i ∈ is, decode? i.word = some i
  runs : ∀ rest, run (is ++ rest) r = run rest r'

/-- Instructions that change one register. -/
structure Sets {n : Nat} (is : List Insn) (r r' : Gprs n) (t : Num) (v : BitVec n) : Prop
    extends Leads is r r' where
  here : r'.val t = v
  others : ∀ j, j ≠ t → r'.val j = r.val j

section
variable {n : Nat} {cfg : Config} {m : Machine} {r r' r'' : Gprs n} {is js : List Insn} {t : Num}
  {u v : BitVec n}

theorem Leads.append (first : Leads is r r') (second : Leads js r' r'') : Leads (is ++ js) r r'' where
  readable := List.forall_mem_append.2 ⟨first.readable, second.readable⟩
  runs rest := by rw [List.append_assoc, first.runs, second.runs]

namespace Sets

/-- A register may hold the value already. -/
theorem nil (here : r.val t = v) : Sets [] r r t v where
  readable := List.forall_mem_nil _
  runs _ := rfl
  here := here
  others _ _ := rfl

theorem imm {op : ImmOp} {rs : Num} {value : UInt16} (other : t ≠ 0)
    (result : op.eval? value.toBitVec (r.val rs) = some v) :
    Sets [.imm op t rs value] r (r.set t v) t v where
  readable := List.forall_mem_singleton.2 (decode?_imm rfl)
  runs := run_cons (congrArg (Option.map (r.set t)) result)
  here := r.val_set_self other v
  others _ apart := r.val_set_of_ne apart v

theorem special {op : Special} {rs rt : Num} {count : Nat} (other : t ≠ 0) (below : count < 32)
    (result : op.eval? count (r.val rs) (r.val rt) = some v) :
    Sets [.special op t rs rt count] r (r.set t v) t v where
  readable := by
    refine List.forall_mem_singleton.2 (decode?_word below ?_)
    have target : t.val ≠ 0 := fun zero => other (Fin.ext zero)
    simp only [Insn.word]
    omega
  runs := run_cons (congrArg (Option.map (r.set t)) result)
  here := r.val_set_self other v
  others _ apart := r.val_set_of_ne apart v

/-- What is written last stays. -/
theorem trans (first : Sets is r r' t u) (second : Sets js r' r'' t v) :
    Sets (is ++ js) r r'' t v where
  toLeads := first.toLeads.append second.toLeads
  here := second.here
  others j apart := (second.others j apart).trans (first.others j apart)

/-- A register that holds no base value is free to be written. -/
theorem holds (sets : Sets is r r' t v) (free : ∀ i, mapped i ≠ t) (held : Holds cfg m r) :
    Holds cfg m r' := by
  intro i
  rw [sets.others _ (free i)]
  exact held i

end Sets

/-! ## Immediates -/

/-- The lower half of a word is filled in after the upper one. -/
theorem or_signExtend (high low : BitVec 16) :
    (high ++ 0#16).signExtend n ||| low.setWidth n = (high ++ low).signExtend n := by
  have sign (lower : BitVec 16) : (high ++ lower).msb = high.msb := BitVec.msb_append
  apply BitVec.eq_of_getLsbD_eq
  intro i below
  rw [BitVec.getLsbD_or, BitVec.getLsbD_signExtend, BitVec.getLsbD_signExtend,
    BitVec.getLsbD_setWidth, BitVec.getLsbD_append, BitVec.getLsbD_append, sign, sign]
  by_cases early : i < 16
  · have inside : i < 16 + 16 := by omega
    simp [early, inside, below]
  · have beyond : low.getLsbD i = false := BitVec.getLsbD_of_ge _ _ (by omega)
    simp [early, beyond]

/-- A word is its two halves. -/
theorem signExtend_halves {v : Int} (least : -2 ^ 31 ≤ v) (most : v < 2 ^ 31) :
    (BitVec.ofInt 16 (v / 2 ^ 16) ++ BitVec.ofInt 16 v).signExtend n = BitVec.ofInt n v := by
  have high : (BitVec.ofInt 16 (v / 2 ^ 16)).toInt = v / 2 ^ 16 := by
    rw [BitVec.toInt_ofInt]
    exact Int.bmod_eq_of_le (by omega) (by omega)
  have low : ((BitVec.ofInt 16 v).toNat : Int) = v % 2 ^ 16 := by
    rw [BitVec.toNat_ofInt]
    omega
  rw [BitVec.signExtend, BitVec.toInt_append, high, low, if_neg (by decide)]
  exact congrArg (BitVec.ofInt n) (Int.mul_ediv_add_emod v (2 ^ 16))

theorem sets_loadImmediate (wide : 32 ≤ n) (other : t ≠ 0) {v : Int} (least : -2 ^ 31 ≤ v)
    (most : v < 2 ^ 31) (r : Gprs n) :
    ∃ r', Sets (loadImmediate t v) r r' t (BitVec.ofInt n v) := by
  have unwrapped : v.bmod (2 ^ 32) = v := Int.bmod_eq_of_le (by omega) (by omega)
  unfold loadImmediate
  simp only [unwrapped]
  by_cases short : fitsShort v = true
  · rw [if_pos short]
    simp only [fitsShort, Bool.and_eq_true, decide_eq_true_eq] at short
    refine ⟨_, .imm other ?_⟩
    have zero : r.val rZero = (0#32).signExtend n := by
      have none : BitVec.ofInt n 0 = 0#n := BitVec.ofInt_natCast n 0
      rw [BitVec.signExtend, BitVec.toInt_zero, none]
      exact r.zero
    rw [zero, addiu_signExtend wide, toBitVec_ofInt, BitVec.zero_add, signExtend_ofInt short.1 short.2,
      signExtend_ofInt least most]
  · rw [if_neg short]
    -- the upper half brings the sign along, so the lower one is filled in without
    have upper : ImmOp.lui.eval? (UInt16.ofInt (v / 2 ^ 16)).toBitVec (r.val rZero) =
        some ((BitVec.ofInt 16 (v / 2 ^ 16) ++ 0#16).signExtend n) := by
      rw [ImmOp.eval?, wordwise, if_pos (List.forall_mem_nil _), toBitVec_ofInt]
    have first := Sets.imm other upper
    by_cases empty : UInt16.ofInt v = 0
    · rw [if_pos empty]
      have low : BitVec.ofInt 16 v = 0#16 := by rw [← toBitVec_ofInt, empty]; rfl
      rw [← signExtend_halves least most, low]
      exact ⟨_, first⟩
    · rw [if_neg empty]
      refine ⟨_, first.trans (.imm other ?_)⟩
      rw [first.here, ImmOp.eval?, toBitVec_ofInt, or_signExtend, signExtend_halves least most]

/-! ## Sources -/

/-- A source without memory: a base register, or an immediate that passes its check. -/
inductive Plain : Operand → Prop where
  | reg (s : Fin 16) : Plain (.reg (.base s))
  | imm {i : Imm} (passed : i.check = .ok ()) (word : i.value < 2 ^ 63) : Plain (.imm i)

/-- Immediates of every class are signed numbers of 32 bits. -/
theorem signed_word {i : Imm} (passed : i.check = .ok ()) (word : i.value < 2 ^ 63) :
    -2 ^ 31 ≤ i.signed ∧ i.signed < 2 ^ 31 := by
  obtain ⟨mask, found, least, most⟩ := Imm.inRange_of_check word passed
  by_cases wide : i.kind = .iw
  · have low : -2 ^ 31 ≤ i.value.bmod (2 ^ 32) := Int.le_bmod (by decide)
    have high : i.value.bmod (2 ^ 32) < 2 ^ 31 := Int.bmod_lt (by decide)
    simp only [Imm.signed, wide]
    exact ⟨low, high⟩
  · have small : mask.toNat < 2 ^ 31 := by
      cases kind : i.kind with
      | iw => exact absurd kind wide
      | _ =>
        rw [kind] at found
        cases found <;> decide
    have value : i.signed = i.value := by
      unfold Imm.signed
      split
      · next kind => exact absurd kind wide
      · rfl
    omega

theorem base_base (m : Machine) (i : Fin 16) : m.base (.base i) = .ok (m.bases.get (place i)) := by
  rw [Machine.base, index_base]
  rfl

theorem baseOf_base (m : Machine) (i : Fin 16) :
    m.baseOf cfg (.reg (.base i)) = .ok (m.bases.get (place i) &&& Machine.baseMask cfg) := by
  rw [Machine.baseOf, base_base]
  rfl

theorem setBase_base (m : Machine) (d : Fin 16) (v : UInt64) :
    m.setBase (.base d) v = .ok (written m d v) := by
  rw [Machine.setBase, index_base]
  rfl

/-- A source whose value `y` stands in a register `t`, while the base values stay where they are. -/
structure Fetched (cfg : Config) (m : Machine) (o : Operand) (is : List Insn) (r r' : Gprs n) (t : Num)
    (y : UInt64) : Prop extends Leads is r r' where
  selected : baseSource cfg o = ⟨is.map .insn, .ok t⟩
  value : m.baseOf cfg o = .ok y
  masked : y &&& Machine.baseMask cfg = y
  here : r'.val t = extended cfg.baseBits n y
  held : Holds cfg m r'

theorem fetched_plain {o : Operand} (target : BaseTarget cfg n) (held : Holds cfg m r) (plain : Plain o) :
    ∃ is r' t y, Fetched cfg m o is r r' t y := by
  cases plain with
  | reg s =>
    refine ⟨[], r, mapped s, m.bases.get (place s) &&& Machine.baseMask cfg, ?_⟩
    constructor
    · exact ⟨List.forall_mem_nil _, fun _ => rfl⟩
    · rw [baseSource, baseNum_base]
      rfl
    · exact baseOf_base m s
    · rw [UInt64.and_assoc, UInt64.and_self]
    · rw [target.extended_and_baseMask]
      exact held s
    · exact held
  | @imm i passed word =>
    obtain ⟨least, most⟩ := signed_word passed word
    obtain ⟨r', sets⟩ := sets_loadImmediate (t := rT9) target.word_le (by decide) least most r
    have free (j : Fin 16) : mapped j ≠ rT9 := (mapped_ne j).2.2
    refine ⟨loadImmediate rT9 i.signed, r', rT9, UInt64.ofInt i.signed &&& Machine.baseMask cfg, ?_⟩
    constructor
    · exact sets.toLeads
    · rw [baseSource]
      simp [Bind.bind, Emission.bind, Emission.emitAll, Pure.pure, Emission.pure]
    · rfl
    · rw [UInt64.and_assoc, UInt64.and_self]
    · rw [target.extended_and_baseMask, target.extended_ofInt least most]
      exact sets.here
    · exact sets.holds free held

/-! ## Execution -/

/-- A primitive is issued, and what it appends to the code leads from some registers to others and
leaves by a branch or not. -/
def Executes (cfg : Config) (p : Primitive) (r r' : Gprs n) (taken : Bool) : Prop :=
  ∀ b, ∃ code, (issue cfg p b).1 = .ok () ∧
    (issue cfg p b).2.code.toList = b.code.toList ++ code ∧ execute? code r = some (r', taken)

theorem executes_of_select {p : Primitive} {items : List Item} {taken : Bool}
    (other : ∀ l, p ≠ .bind l) (selected : select cfg p = ⟨items, .ok ()⟩)
    (readable : ∀ i ∈ items.flatMap Item.insns, decode? i.word = some i)
    (ran : run (items.flatMap Item.insns) r = some (r', taken)) : Executes cfg p r r' taken := by
  intro b
  have issued : issue cfg p b = (.ok (), items.foldl Item.append b) := by
    unfold issue
    split
    · next l => exact absurd rfl (other l)
    · rw [selected]
  refine ⟨(items.flatMap Item.insns).flatMap Insn.bytes, ?_, ?_, ?_⟩
  · rw [issued]
  · rw [issued]
    exact code_foldl items b
  · rw [execute?_insns readable]
    exact ran

theorem insns_map (is : List Insn) : (is.map Item.insn).flatMap Item.insns = is := by
  rw [List.flatMap_map]
  exact List.flatMap_singleton' is

namespace Leads

theorem executes {p : Primitive} (leads : Leads is r r') (other : ∀ l, p ≠ .bind l)
    (selected : select cfg p = ⟨is.map .insn, .ok ()⟩) : Executes cfg p r r' false := by
  apply executes_of_select other selected
  · rw [insns_map]
    exact leads.readable
  · have ran := leads.runs []
    rw [insns_map]
    rwa [List.append_nil] at ran

theorem branches {p : Primitive} {op : ImmOp} {rt rs : Num} {l : LabelRef} {taken : Bool}
    (leads : Leads is r r') (other : ∀ l, p ≠ .bind l)
    (selected : select cfg p = ⟨is.map .insn ++ [.jump (.imm op rt rs 0) l], .ok ()⟩)
    (decided : (Insn.imm op rt rs 0).taken? r' = some taken) : Executes cfg p r r' taken := by
  apply executes_of_select other selected
  · rw [List.flatMap_append, insns_map]
    have branch : decode? (Insn.imm op rt rs 0).word = some (.imm op rt rs 0) := decode?_imm rfl
    have slot : decode? Insn.nop.word = some .nop := rfl
    refine List.forall_mem_append.2 ⟨leads.readable, ?_⟩
    simp [Item.insns, branch, slot]
  · rw [List.flatMap_append, insns_map, leads.runs]
    exact run_branch decided

end Leads

/-! ## Writes -/

/-- The primitives that write a base register without reading memory. -/
inductive WritesBase (d : Fin 16) : Primitive → Prop where
  | move {src : Operand} (plain : Plain src) : WritesBase d (.moveBase (.reg (.base d)) src)
  | arith {op : Op} {src : Operand} (base : Program.baseOp op = true) (plain : Plain src) :
    WritesBase d (.arithBase op (.base d) src)
  | shift {op : Op} (shift : op = .shl ∨ op = .shr) (signed : Bool) (count : Imm) :
    WritesBase d (.shiftBase op signed (.base d) count)

/-- A primitive whose instructions write what the reference machine writes. -/
structure Simulates (cfg : Config) (m : Machine) (p : Primitive) (is : List Insn) (r r' : Gprs n)
    (d : Fin 16) (v : UInt64) : Prop extends Leads is r r' where
  selected : select cfg p = ⟨is.map .insn, .ok ()⟩
  stepped : m.step cfg p = .ok (written m d v, none)
  here : r'.val (mapped d) = extended cfg.baseBits n v
  others : ∀ i, i ≠ d → r'.val (mapped i) = r.val (mapped i)

theorem Sets.simulates {p : Primitive} {d : Fin 16} {x : UInt64}
    (sets : Sets is r r' (mapped d) (extended cfg.baseBits n x))
    (selected : select cfg p = ⟨is.map .insn, .ok ()⟩)
    (stepped : m.step cfg p = .ok (written m d x, none)) : Simulates cfg m p is r r' d x where
  toLeads := sets.toLeads
  selected := selected
  stepped := stepped
  here := sets.here
  others i apart := sets.others _ fun same => apart (mapped_injective i d same)

theorem get_written (m : Machine) (d : Fin 16) (x : UInt64) :
    (written m d x).bases.get (place d) = x :=
  Vector.getElem_set_self (place d).isLt

theorem get_written_of_ne (m : Machine) {i d : Fin 16} (other : i ≠ d) (x : UInt64) :
    (written m d x).bases.get (place i) = m.bases.get (place i) := by
  have apart : (place d).val ≠ (place i).val := by
    simp only [place, Fin.val_castLE]
    omega
  exact Vector.getElem_set_ne (place d).isLt (place i).isLt apart

/-- Base values are held as before after a write. -/
theorem Simulates.holds {p : Primitive} {d : Fin 16} {x : UInt64}
    (simulated : Simulates cfg m p is r r' d x) (held : Holds cfg m r) : Holds cfg (written m d x) r' := by
  intro i
  by_cases same : i = d
  · rw [same, get_written]
    exact simulated.here
  · rw [get_written_of_ne m same, simulated.others i same]
    exact held i

section
variable {d : Fin 16} (target : BaseTarget cfg n) (held : Holds cfg m r)
include target held

theorem simulates_move {src : Operand} (plain : Plain src) :
    ∃ is r' v, Simulates cfg m (.moveBase (.reg (.base d)) src) is r r' d v := by
  have stepped {y : UInt64} (value : m.baseOf cfg src = .ok y) :
      m.step cfg (.moveBase (.reg (.base d)) src) = .ok (written m d y, none) := by
    rw [Machine.step, Machine.effect, value]
    exact congrArg (· >>= _) (setBase_base m d y)
  cases plain with
  | reg s =>
    have source : r.val (mapped s) =
        extended cfg.baseBits n (m.bases.get (place s) &&& Machine.baseMask cfg) := by
      rw [target.extended_and_baseMask]
      exact held s
    have chosen : select cfg (.moveBase (.reg (.base d)) (.reg (.base s))) =
        if mapped s = mapped d then .emitAll [] else put (.special .or (mapped d) (mapped s) rZero 0) := by
      rw [select, selectMoveBase]
      simp only [baseNum_base]
      rfl
    by_cases same : mapped s = mapped d
    · refine ⟨[], r, _, (Sets.nil ?_).simulates ?_ (stepped (baseOf_base m s))⟩
      · rw [← same]
        exact source
      · rw [chosen, if_pos same]
        rfl
    · have copied : Special.or.eval? 0 (r.val (mapped s)) (r.val rZero) =
          some (extended cfg.baseBits n (m.bases.get (place s) &&& Machine.baseMask cfg)) := by
        have zero : r.val rZero = 0#n := r.zero
        rw [Special.eval?, zero, BitVec.or_zero, source]
      have sets := Sets.special (mapped_ne d).1 (by decide) copied
      refine ⟨_, _, _, sets.simulates ?_ (stepped (baseOf_base m s))⟩
      rw [chosen, if_neg same]
      rfl
  | @imm i passed word =>
    obtain ⟨least, most⟩ := signed_word passed word
    obtain ⟨r', sets⟩ := sets_loadImmediate target.word_le (mapped_ne d).1 least most r
    rw [← target.extended_ofInt least most, ← target.extended_and_baseMask] at sets
    refine ⟨_, r', _, sets.simulates ?_ (stepped rfl)⟩
    rw [select, selectMoveBase, baseNum_base]
    rfl

theorem simulates_arith {op : Op} {src : Operand} (base : Program.baseOp op = true)
    (plain : Plain src) : ∃ is r' v, Simulates cfg m (.arithBase op (.base d) src) is r r' d v := by
  obtain ⟨is, r₁, t, y, fetched⟩ := fetched_plain target held plain
  have stepped : m.step cfg (.arithBase op (.base d) src) = .ok (written m d
      (Machine.baseResult op (m.bases.get (place d)) y &&& Machine.baseMask cfg), none) := by
    rw [Machine.step, Machine.effect, fetched.value, base_base]
    exact congrArg (· >>= _) (setBase_base m d _)
  obtain ⟨fn, form⟩ := Option.isSome_iff_exists.1 ((registerForm?_isSome cfg op).trans base)
  have result := target.eval_registerForm form (m.bases.get (place d)) y
  cases short : shortSource? cfg op src with
  | some given =>
    obtain ⟨iop, value⟩ := given
    cases plain with
    | reg s => cases short
    | @imm i passed word =>
      -- the immediate is not loaded, but its form gives what the form on registers would
      obtain ⟨least, most⟩ := signed_word passed word
      obtain ⟨fn', form', equal⟩ := target.eval_immediateForm short (m.bases.get (place d))
      obtain rfl := Option.some.inj (form.symm.trans form')
      have source : UInt64.ofInt i.signed &&& Machine.baseMask cfg = y := Except.ok.inj fetched.value
      have number : extended cfg.baseBits n y = BitVec.ofInt n i.signed := by
        rw [← source, target.extended_and_baseMask, target.extended_ofInt least most]
      rw [number, ← equal, ← held d] at result
      refine ⟨_, _, _, (Sets.imm (mapped_ne d).1 result).simulates ?_ stepped⟩
      rw [select, selectArithBase, baseNum_base]
      simp only [short]
      rfl
  | none =>
    rw [← fetched.here, ← fetched.held d] at result
    have sets := Sets.special (mapped_ne d).1 (by decide) result
    refine ⟨_, _, _, fetched.toLeads.append sets.toLeads, ?_, stepped, sets.here, ?_⟩
    · rw [select, selectArithBase, baseNum_base, List.map_append]
      simp only [short, fetched.selected, form]
      rfl
    · intro i apart
      rw [sets.others _ fun same => apart (mapped_injective i d same), fetched.held i, held i]

theorem simulates_shiftForm {p : Primitive} {narrow low high : Special} {x c : UInt64}
    (selected : select cfg p =
      let form := shiftForm cfg narrow low high (c.toNat % cfg.baseBits)
      put (.special form.1 (mapped d) rZero (mapped d) form.2))
    (stepped : m.step cfg p = .ok (written m d x, none))
    (result : let form := shiftForm cfg narrow low high (c.toNat % cfg.baseBits)
      form.1.eval? form.2 (r.val rZero) (extended cfg.baseBits n (m.bases.get (place d))) =
        some (extended cfg.baseBits n x)) : ∃ is r' v, Simulates cfg m p is r r' d v := by
  have below : c.toNat % cfg.baseBits < cfg.baseBits := by
    apply Nat.mod_lt
    rcases target.widths with ⟨bits, _⟩ | ⟨bits, _⟩ <;> omega
  rw [← held d] at result
  have sets := Sets.special (mapped_ne d).1 (target.shiftForm_lt below _ _ _) result
  exact ⟨_, _, _, sets.simulates selected stepped⟩

theorem simulates_shift {op : Op} (shift : op = .shl ∨ op = .shr) (signed : Bool) (count : Imm) :
    ∃ is r' v, Simulates cfg m (.shiftBase op signed (.base d) count) is r r' d v := by
  have stepped : m.step cfg (.shiftBase op signed (.base d) count) = .ok (written m d
      (Lane.eval op ⟨cfg.baseBits, if signed then .signed else .unsigned⟩ (m.bases.get (place d))
        (UInt64.ofInt count.value)), none) := by
    rw [Machine.step, Machine.effect, base_base]
    exact congrArg (· >>= _) (setBase_base m d _)
  rcases shift with rfl | rfl
  · refine simulates_shiftForm target held ?_ stepped (target.eval_left _ ?_ _ _ _)
    · rw [select, selectShiftBase, baseNum_base, ← target.count_eq]
      rfl
    · cases signed <;> decide
  · cases signed with
    | false =>
      refine simulates_shiftForm target held ?_ stepped (target.eval_right _ _ _)
      rw [select, selectShiftBase, baseNum_base, ← target.count_eq]
      rfl
    | true =>
      refine simulates_shiftForm target held ?_ stepped (target.eval_rightSigned _ _ _)
      rw [select, selectShiftBase, baseNum_base, ← target.count_eq]
      rfl

theorem simulates {p : Primitive} (writes : WritesBase d p) :
    ∃ is r' v, Simulates cfg m p is r r' d v := by
  cases writes with
  | move plain => exact simulates_move target held plain
  | arith base plain => exact simulates_arith target held base plain
  | shift shift signed count => exact simulates_shift target held shift signed count

end

/-! ## Jumps -/

/-- The comparison for an ordered condition on two registers. -/
def Ordering.insn (o : Ordering) (a b : Num) : Insn :=
  if o.exchanged then .special o.compare rAt b a 0 else .special o.compare rAt a b 0

/-- The branch that follows the comparison. -/
def Ordering.branch (o : Ordering) : Insn := .imm (if o.holds then .bne else .beq) rZero rAt 0

theorem taken?_branch {less : Bool} (target : BaseTarget cfg n) (o : Ordering)
    (outcome : r.val rAt = if less then 1 else 0) : o.branch.taken? r = some (less == o.holds) := by
  have zero : r.val rZero = 0#n := r.zero
  have one : 1#n ≠ 0#n := by
    rcases target.widths with ⟨_, _, rfl | rfl⟩ | ⟨_, _, rfl⟩ <;> decide
  unfold Ordering.branch
  cases o.holds <;> cases less <;> simp [Insn.taken?, outcome, zero, one]

section
variable {c : Cond} {x : Fin 16} {o : Operand} {y : UInt64} {l : LabelRef} (target : BaseTarget cfg n)
  (fetched : Fetched cfg m o is r r' t y)
include target fetched

theorem beq_fetched : (r'.val (mapped x) == r'.val t) =
    (m.bases.get (place x) &&& Machine.baseMask cfg == y) := by
  rw [fetched.held x, fetched.here, Bool.eq_iff_iff, beq_iff_eq, beq_iff_eq, target.extended_inj,
    fetched.masked]

theorem executes_ordered {order : Ordering} (found : Ordering.ofCond? c = some order) :
    ∃ r'', Executes cfg (.compareJump c (.base x) o l) r r''
      (c.holds cfg.baseBits (m.bases.get (place x) &&& Machine.baseMask cfg) y) ∧ Holds cfg m r'' := by
  obtain ⟨less, result, holds⟩ := target.eval_ordering found (m.bases.get (place x)) y
  rw [fetched.masked] at holds
  rw [← fetched.here, ← fetched.held x] at result
  have compared : Sets [order.insn (mapped x) t] r' (r'.set rAt (if less then 1 else 0)) rAt
      (if less then 1 else 0) := by
    unfold Ordering.insn
    by_cases exchanged : order.exchanged = true
    · simp only [if_pos exchanged] at result ⊢
      exact Sets.special (by decide) (by decide) result
    · simp only [if_neg exchanged] at result ⊢
      exact Sets.special (by decide) (by decide) result
  have selected : select cfg (.compareJump c (.base x) o l) =
      ⟨(is ++ [order.insn (mapped x) t]).map .insn ++ [.jump order.branch l], .ok ()⟩ := by
    rw [select, selectCompareJump, baseNum_base, fetched.selected, List.map_append,
      List.append_assoc]
    cases c with
    | eq => cases found
    | ne => cases found
    | _ => cases found <;> rfl
  have decided := taken?_branch target order compared.here
  rw [holds]
  refine ⟨_, (fetched.toLeads.append compared.toLeads).branches nofun selected decided, ?_⟩
  exact compared.holds (fun i => (mapped_ne i).2.1) fetched.held

/-- The branch of a jump is taken when the condition holds. -/
theorem executes_compareJump (known : c ∈ Cond.named) :
    ∃ r'', Executes cfg (.compareJump c (.base x) o l) r r''
      (c.holds cfg.baseBits (m.bases.get (place x) &&& Machine.baseMask cfg) y) ∧ Holds cfg m r'' := by
  have equal := beq_fetched (x := x) target fetched
  by_cases eq : c = .eq
  · subst eq
    have selected : select cfg (.compareJump .eq (.base x) o l) =
        ⟨is.map .insn ++ [.jump (.imm .beq t (mapped x) 0) l], .ok ()⟩ := by
      rw [select, selectCompareJump, baseNum_base, fetched.selected]
      rfl
    exact ⟨r', fetched.toLeads.branches nofun selected (congrArg some equal), fetched.held⟩
  by_cases ne : c = .ne
  · subst ne
    have selected : select cfg (.compareJump .ne (.base x) o l) =
        ⟨is.map .insn ++ [.jump (.imm .bne t (mapped x) 0) l], .ok ()⟩ := by
      rw [select, selectCompareJump, baseNum_base, fetched.selected]
      rfl
    exact ⟨r', fetched.toLeads.branches nofun selected (congrArg (fun b => some !b) equal), fetched.held⟩
  obtain ⟨order, found⟩ := ofCond?_isSome known eq ne
  exact executes_ordered target fetched found

end

/-- Where base values are held sign-extended, every primitive that writes a base register leaves there
the value that the reference machine stores, and no other one is changed. The branch of every jump on
base values is taken exactly when the reference machine jumps. -/
theorem base_simulated (target : BaseTarget cfg n) (held : Holds cfg m r) :
    (∀ d p, WritesBase d p → ∃ v r', m.step cfg p = .ok (written m d v, none) ∧
      Executes cfg p r r' false ∧ r'.val (mapped d) = extended cfg.baseBits n v ∧
      (∀ i, i ≠ d → r'.val (mapped i) = r.val (mapped i)) ∧ Holds cfg (written m d v) r') ∧
    ∀ c ∈ Cond.named, ∀ (x : Fin 16) (y : Operand), Plain y → ∀ l : LabelRef, ∃ taken r',
      m.step cfg (.compareJump c (.base x) y l) = .ok (m, if taken then l else none) ∧
      Executes cfg (.compareJump c (.base x) y l) r r' taken ∧
      ∀ i, r'.val (mapped i) = r.val (mapped i) := by
  constructor
  · intro d p writes
    obtain ⟨is, r', v, simulated⟩ := simulates target held writes
    have other : ∀ l, p ≠ .bind l := by
      rintro l rfl
      cases writes
    have executes := simulated.toLeads.executes other simulated.selected
    exact ⟨v, r', simulated.stepped, executes, simulated.here, simulated.others, simulated.holds held⟩
  · intro c known x y plain l
    obtain ⟨is, r₁, t, z, fetched⟩ := fetched_plain target held plain
    obtain ⟨r', executes, held'⟩ := executes_compareJump (x := x) (l := l) target fetched known
    have still : m.effect cfg (.compareJump c (.base x) y l) = .ok m := rfl
    refine ⟨_, r', ?_, executes, fun i => (held' i).trans (held i).symm⟩
    rw [Machine.step, still, Machine.jumpOf, fetched.value, base_base]
    rfl

end

theorem base_simulated_word :
    let cfg := Config.mips .mips64 "128x2" 2 64 32
    let m := written (Machine.init cfg #[]) 0 0x80000001
    let r := (⟨fun _ => 0, rfl⟩ : Gprs 64).set (mapped 0) (extended 32 64 0x80000001)
    let y : Operand := .imm ⟨0x90000000, .iw⟩
    let l : LabelRef := some ⟨.ofString "done", 0⟩
    (BaseTarget cfg 64 ∧ Holds cfg m r ∧ WritesBase 0 (.arithBase .add (.base 0) y) ∧
      .lts ∈ Cond.named ∧ Plain y) ∧
    (∃ v r', m.step cfg (.arithBase .add (.base 0) y) = .ok (written m 0 v, none) ∧
      Executes cfg (.arithBase .add (.base 0) y) r r' false ∧ r'.val (mapped 0) = extended 32 64 v ∧
      (∀ i, i ≠ 0 → r'.val (mapped i) = r.val (mapped i)) ∧ Holds cfg (written m 0 v) r') ∧
    ∃ taken r', m.step cfg (.compareJump .lts (.base 0) y l) = .ok (m, if taken then l else none) ∧
      Executes cfg (.compareJump .lts (.base 0) y l) r r' taken ∧
      ∀ i, r'.val (mapped i) = r.val (mapped i) := by
  intro cfg m r y l
  have target : BaseTarget cfg 64 := .mips64 rfl (.inl rfl)
  have held : Holds cfg m r := by
    show ∀ i : Fin 16, r.val (mapped i) = extended 32 64 (m.bases.get (place i))
    decide
  have plain : Plain y := .imm rfl (by decide)
  have writes : WritesBase 0 (.arithBase .add (.base 0) y) := .arith rfl plain
  obtain ⟨write, jump⟩ := base_simulated target held
  exact ⟨⟨target, held, writes, by decide, plain⟩, write 0 _ writes, jump .lts (by decide) 0 y plain l⟩

end LaneAsm.Msa
