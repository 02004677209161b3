import LaneAsm.Proofs.X86.Select
import LaneAsm.Proofs.X86.Vectors

/-!
Operations of three operands by instructions of two. Without VEX the destination of an instruction is
its first source as well, so the first source is copied there, sources are exchanged, or the second
one is parked in the temporary (`op3`). Whichever registers coincide, the destination gets what the
operation gives on the sources as they were before (`destructive_forms_correct`). Exchanging is sound
because the lanes of integer operations that may be exchanged commute (`Lane.integer_comm`).
-/
namespace LaneAsm

/-! ## Operations that commute -/

namespace Lane

theorem addSigned_comm (a b lo hi : Int64) : addSigned a b lo hi = addSigned b a lo hi := by
  rw [addSigned, addSigned, Int64.add_comm b a]
  by_cases first : 0 ≤ a <;> by_cases second : 0 ≤ b <;> simp [first, second]

theorem addUnsigned_comm (a b hi : UInt64) : addUnsigned a b hi = addUnsigned b a hi := by
  have wraps : a + b < a ↔ a + b < b := by
    have := a.toNat_lt
    have := b.toNat_lt
    rw [UInt64.lt_iff_toNat_lt, UInt64.lt_iff_toNat_lt, UInt64.toNat_add]
    omega
  simp only [addUnsigned, UInt64.add_comm b a, wraps]

section
variable {op : Op} (commutes : op.commutative = true) (e : Elem)
include commutes

theorem signedLane?_comm (a b : Int64) (n k : UInt64) :
    signedLane? op e a b n = signedLane? op e b a k := by
  cases op with
  | ads => simp only [signedLane?, addSigned_comm a b]
  | min | max =>
    simp only [signedLane?]
    grind
  | ceq => simp only [signedLane?, BEq.comm (a := a)]
  | cne => simp only [signedLane?, bne_comm (a := a)]
  | _ => first | rfl | contradiction

theorem unsignedLane?_comm (a b : UInt64) : unsignedLane? op e a b = unsignedLane? op e b a := by
  cases op with
  | ads => simp only [unsignedLane?, addUnsigned_comm a b]
  | min | max =>
    simp only [unsignedLane?]
    grind
  | ceq => simp only [unsignedLane?, BEq.comm (a := a)]
  | cne => simp only [unsignedLane?, bne_comm (a := a)]
  | _ => first | rfl | contradiction

/-- The operations whose sources may change places give the same integer lanes either way. -/
theorem integer_comm (x y : UInt64) : integer op e x y = integer op e y x := by
  have signed := signedLane?_comm commutes e (signExtend e.bits (x &&& e.mask))
    (signExtend e.bits (y &&& e.mask)) (y &&& e.mask) (x &&& e.mask)
  have unsigned := unsignedLane?_comm commutes e (x &&& e.mask) (y &&& e.mask)
  have sum := UInt64.add_comm (x &&& e.mask) (y &&& e.mask)
  have product := UInt64.mul_comm (x &&& e.mask) (y &&& e.mask)
  cases op <;> first | contradiction | simp only [integer, signed, unsigned, sum, product]

end

end Lane

namespace Lanes

open Bytes

theorem eval?_comm {op : Op} (lanewise : paired op = true) (commutes : op.commutative = true)
    {e : Elem} (valid : e.valid = true) (whole : e.isFloat = false) {a b : Bytes} (lanes : e.bytes ∣ a.size)
    (same : a.size = b.size) : eval? op e a b = eval? op e b a := by
  have commute : (fun y x => Lane.eval op e x y) = Lane.eval op e := by
    funext y x
    simp only [Lane.eval, whole, Bool.false_eq_true, if_false, Lane.integer_comm commutes e y x]
  rw [eval?_paired lanewise valid lanes same, eval?_paired lanewise valid (same ▸ lanes) same.symm,
    List.zipWith_comm, commute]

end Lanes

namespace X86

open State

/-! ## Three operands -/

section
variable {u : VectorUnit} {cfg : Config} (plain : vexed cfg = false) {s : State} {d x : RegNum}
  (into : d ≠ tmp) (left : x ≠ tmp)
include plain into left

/-- The destination gets what a form gives on the two sources. Where the sources may be exchanged the
form has to give the same either way. -/
theorem reaches_op3 {f : Form} (form : f.aligned u false = u.strict) {long commutative : Bool} {y : Rm}
    {short : Bool} {b v : Bytes} (given : s.bytes? short 16 y = some b) (can : s.Fetchable u short y)
    (gives : ∀ held, f.give? u false [] held (s.low x 16) b = some v)
    (exchanged : commutative = true → ∀ held, f.give? u false [] held b (s.low x 16) = some v)
    (size : v.size = 16) :
    s.Reaches u short (op3 cfg f long commutative d x y []) fun t =>
      t.low d 16 = v ∧ Alters [d, tmp] s t := by
  have finish {w : State} (before : Alters [d, tmp] s w) :
      ∀ t, t.low d 16 = v → Alters [d] w t →
        t.Reaches u short [] fun t => t.low d 16 = v ∧ Alters [d, tmp] s t := by
    intro t here last
    exact .done ⟨here, before.trans (last.mono (by simp))⟩
  have admits {w : State} {y : Rm} (can : w.Fetchable u short y) (aligned : f.aligned u false = true) :
      w.misaligned short 16 y = false := can (form ▸ aligned)
  simp only [op3, plain, Bool.false_eq_true, if_false]
  by_cases first : d = x
  · subst first
    rw [if_pos rfl]
    exact .legacy given (admits can) (gives _) size (finish (.refl ..))
  rw [if_neg first]
  by_cases second : y = .reg d
  · subst second
    obtain rfl := Option.some.inj given
    rw [if_pos rfl]
    cases commutative with
    | true =>
      rw [if_pos rfl]
      exact .legacy rfl (admits (fetchable_reg _)) (exchanged rfl _) size (finish (.refl ..))
    | false =>
      rw [if_neg Bool.false_ne_true, List.append_assoc]
      refine .copy plain fun t₁ parked alters₁ => .copy plain fun t₂ moved alters₂ => ?_
      rw [alters₁.low (by simpa using left)] at moved
      have second : t₂.low tmp 16 = s.low d 16 := by
        rw [alters₂.low (by simpa using into.symm), parked]
      have before : Alters [d, tmp] s t₂ := (alters₁.mono (by simp)).trans (alters₂.mono (by simp))
      refine .legacy (congrArg some second) (admits (fetchable_reg _)) ?_ size (finish before)
      rw [moved]
      exact gives _
  · rw [if_neg second]
    refine .copy plain fun t₁ moved alters₁ => ?_
    have same : t₁.bytes? short 16 y = some b := by
      rw [alters₁.bytes? fun r source => ?_, given]
      rintro member
      rw [List.mem_singleton.mp member] at source
      exact second source
    refine .legacy same (admits (alters₁.fetchable can)) ?_ size (finish (alters₁.mono (by simp)))
    rw [moved]
    exact gives _

end

/-! ## Sources -/

/-- An operation that is encoded as it stands has a form. -/
theorem nativeForm?_of_planned {cfg : Config} {op : Op} {e : Elem} {p : Plan}
    (planned : planOf? cfg op e = some p) (direct : p.unit = .none) :
    ∃ level, nativeForm? op e = some (nativeForm op e, level) := by
  cases native : nativeForm? op e with
  | none =>
    simp only [planOf?, planFor?, native] at planned
    split at planned
    · cases planned
      cases direct
    · cases planned
  | some found =>
    obtain ⟨f, level⟩ := found
    refine ⟨level, ?_⟩
    rw [nativeForm, native]
    rfl

/-- An integer comparison with a form is one that the encoder takes. -/
theorem nativeCompare_of_nativeForm? {op : Op} {e : Elem} (whole : e.isFloat = false) {f : Form}
    {level : Level} (native : nativeForm? op e = some (f, level)) (compares : op.isCompare = true) :
    nativeCompare op e = true := by
  simp only [nativeForm?, whole, Bool.false_eq_true, if_false] at native
  cases op <;> simp_all [nativeCompare, Op.isCompare]

/-- The operations on bits that have forms. -/
def bitForm? : Op → Option Form
  | .and => some .andps
  | .ann => some .andnps
  | .orr => some .orps
  | .xor => some .xorps
  | _ => none

theorem give?_bitForm {u : VectorUnit} {op : Op} {f : Form} (found : bitForm? op = some f)
    {a b : Bytes} (same : a.size = b.size) (held : RegNum → Bytes) (e : Elem) :
    f.give? u false [] held a b = Lanes.eval? op e a b := by
  have fits : a.size ≤ b.size := by omega
  cases op <;> cases found <;> simp only [Lanes.eval?, if_pos fits] <;> rfl

theorem give?_bitForm_comm {u : VectorUnit} (op : Op) {f : Form} (found : bitForm? op = some f)
    (commutes : op.commutative = true) (held : RegNum → Bytes) (a b : Bytes) :
    f.give? u false [] held b a = f.give? u false [] held a b := by
  cases op with
  | and =>
    cases found
    rw [give?_andps, give?_andps, Array.zipWith_comm]
    simp only [UInt8.and_comm]
  | orr =>
    cases found
    rw [give?_orps, give?_orps, Array.zipWith_comm]
    simp only [UInt8.or_comm]
  | xor =>
    cases found
    rw [give?_xorps, give?_xorps, Array.zipWith_comm]
    simp only [UInt8.xor_comm]
  | ann => contradiction
  | _ => cases found

theorem aligned_bitForm {op : Op} {f : Form} (found : bitForm? op = some f) (u : VectorUnit) :
    f.aligned u false = u.strict := by
  cases op <;> cases found <;> rfl

/-- A vector compared with itself gives a vector of ones. -/
theorem eval?_self {a : Bytes} (size : a.size = 16) :
    Lanes.eval? .ceq .u32 a a = some (Array.replicate 16 0xFF) := by
  have lanes : Elem.u32.bytes ∣ a.size := by
    rw [size]
    decide
  have equal (x : UInt64) : Lane.eval .ceq .u32 x x = Elem.u32.mask := by
    rw [Lane.eval_compare rfl rfl rfl]
    simp [Lane.relates, Lane.flag]
  have count : (a.lanes .u32).length = 4 := by
    rw [Bytes.length_lanes, size]
    rfl
  rw [Lanes.eval?_paired rfl rfl lanes rfl, List.zipWith_self]
  simp only [equal, List.map_const', count]
  decide

theorem xor_ones {a : Bytes} (size : a.size = 16) :
    Array.zipWith (fun x y => x ^^^ y) a (Array.replicate 16 0xFF) = a.map (~~~·) := by
  apply Array.ext
  · simp [size]
  · intro i first second
    simp only [Array.getElem_zipWith, Array.getElem_replicate, Array.getElem_map]
    exact UInt8.xor_neg_one

/-! ## Selection -/

section
variable {u : VectorUnit} {cfg : Config} (plain : vexed cfg = false) (narrow : cfg.physBytes = 16)
  {s : State} {dst src : Reg} {d x : RegNum} (into : vectorNum dst = .ok d)
  (left : vectorNum src = .ok x) (free : d ≠ tmp ∧ x ≠ tmp)
include plain narrow into left free

/-- The complement is the exclusive or with a vector of ones, which the temporary gets first. -/
theorem leaves_not : Leaves u cfg (select cfg (.not dst src)) s d ((s.low x 16).map (~~~·)) := by
  have selected : select cfg (.not dst src) =
      .emitAll (.legacy .pcmpeqd tmp (.reg tmp) [] ::
        op3 cfg .xorps (wide cfg) true d x (.reg tmp) []) := by
    have integers : floatOnly cfg = false := by simp [floatOnly, wide, narrow]
    have ones : setAll cfg tmp = [.legacy .pcmpeqd tmp (.reg tmp) []] := by
      simp [setAll, integers, op3, plain]
    simp only [select, selectNot, into, left, ones]
    rfl
  have size := size_low s tmp (show 16 ≤ 32 by decide)
  have native : nativeForm? .ceq .u32 = some (.pcmpeqd, Level.sse2) := rfl
  have compared : Form.pcmpeqd.give? u false [] (s.low · 16) (s.low tmp 16) (s.low tmp 16) =
      some (Array.replicate 16 0xFF) := by
    rw [give?_native u _ _ _ rfl rfl native, ← u.binary_eq rfl rfl native size size (by simp),
      eval?_self size]
  rw [selected]
  refine ⟨rfl, .legacy rfl (fun _ => rfl) compared Array.size_replicate fun t₁ ones alters => ?_⟩
  have source : t₁.low x 16 = s.low x 16 := alters.low (by simpa using free.2) 16
  have size₁ := size_low s x (show 16 ≤ 32 by decide)
  have flipped (held : RegNum → Bytes) :
      Form.xorps.give? u false [] held (t₁.low x 16) (Array.replicate 16 0xFF) =
        some ((s.low x 16).map (~~~·)) := by
    rw [give?_xorps, source, xor_ones size₁]
  have exchanged (held : RegNum → Bytes) :
      Form.xorps.give? u false [] held (Array.replicate 16 0xFF) (t₁.low x 16) =
        some ((s.low x 16).map (~~~·)) := by
    rw [give?_bitForm_comm .xor rfl rfl, flipped]
  have strict : Form.xorps.aligned u false = u.strict :=
    aligned_bitForm (show bitForm? .xor = some .xorps from rfl) u
  have rest : t₁.Reaches u cfg.shortAddress (op3 cfg .xorps (wide cfg) true d x (.reg tmp) []) fun t =>
      t.low d 16 = (s.low x 16).map (~~~·) ∧ Alters [d, tmp] t₁ t :=
    reaches_op3 plain free.1 free.2 strict (congrArg some ones)
      (fetchable_reg _) flipped (fun _ => exchanged) (by simp [size₁])
  obtain ⟨t, ran, here, after⟩ := rest
  refine ⟨t, ran, ?_, (alters.mono (by simp)).trans after⟩
  rw [narrow]
  exact here

variable {y : Operand} {z : Rm} {b : Bytes} (right : vectorSource y = .ok z)
  (given : s.vector? cfg z = some b) (can : s.Fetchable u cfg.shortAddress z)
include right given can

omit into left free plain right can in
theorem bytes?_of_vector? : s.bytes? cfg.shortAddress 16 z = some b := by
  rw [vector?_eq, narrow] at given
  exact given

omit into left right in
/-- What a selection of one operation leaves, where its form gives the same either way if the sources
may be exchanged. -/
theorem leaves_op3 {f : Form} (form : f.aligned u false = u.strict) {commutative : Bool} {v : Bytes}
    (gives : ∀ held, f.give? u false [] held (s.low x 16) b = some v)
    (exchanged : commutative = true → ∀ held, f.give? u false [] held b (s.low x 16) = some v)
    (size : v.size = 16) :
    Leaves u cfg (.emitAll (op3 cfg f (wide cfg) commutative d x z [])) s d v := by
  refine ⟨rfl, ?_⟩
  rw [narrow]
  exact reaches_op3 plain free.1 free.2 form (bytes?_of_vector? narrow given) can gives exchanged size

theorem leaves_logic {op : Op} {f : Form} (found : bitForm? op = some f) :
    ∃ v, (∀ e, Lanes.eval? op e (s.low x 16) b = some v) ∧
      Leaves u cfg (select cfg (.logic op dst src y)) s d v := by
  have selected : select cfg (.logic op dst src y) =
      .emitAll (op3 cfg f (wide cfg) op.commutative d x z []) := by
    simp only [select, selectLogic, into, left, right]
    cases op <;> cases found <;> rfl
  have size_a := size_low s x (show 16 ≤ 32 by decide)
  have size_b := size_bytes? (by decide) (bytes?_of_vector? narrow given)
  have same : (s.low x 16).size = b.size := size_a.trans size_b.symm
  obtain ⟨v, value⟩ : ∃ v, Lanes.eval? op .u8 (s.low x 16) b = some v := by
    have fits : (s.low x 16).size ≤ b.size := by omega
    cases op <;> cases found <;> exact ⟨_, if_pos fits⟩
  have gives (held : RegNum → Bytes) : f.give? u false [] held (s.low x 16) b = some v := by
    rw [give?_bitForm found same held .u8, value]
  rw [selected]
  refine ⟨v, fun e => ?_, leaves_op3 plain narrow free given can (aligned_bitForm found u) gives
    (fun commutes held => ?_) ?_⟩
  · rw [← give?_bitForm found same (s.low · 16) e]
    exact gives _
  · rw [give?_bitForm_comm op found commutes, gives]
  · rw [Lanes.size_eval? value, size_a]

theorem leaves_binary {op : Op} {e : Elem} (valid : e.valid = true) (whole : e.isFloat = false)
    {p : Plan} (planned : planOf? cfg op e = some p) (direct : p.unit = .none) :
    ((ShiftsByOne op → (wordOf (b.toList.take 8)).toNat < e.bits) →
      Lanes.eval? op e (s.low x 16) b = some (u.binary (nativeForm op e) (s.low x 16) b)) ∧
    Leaves u cfg (selectBinary cfg op e dst src y []) s d
      (u.binary (nativeForm op e) (s.low x 16) b) := by
  have selected : selectBinary cfg op e dst src y [] =
      .emitAll (op3 cfg (nativeForm op e) (wide cfg) (exchangeable op e) d x z []) := by
    simp only [selectBinary, into, left, right, planOf, planned]
    exact if_pos direct
  obtain ⟨level, native⟩ := nativeForm?_of_planned planned direct
  have size_a := size_low s x (show 16 ≤ 32 by decide)
  have size_b := size_bytes? (by decide) (bytes?_of_vector? narrow given)
  have value := u.binary_eq valid whole native size_a size_b
  rw [selected]
  refine ⟨value, leaves_op3 plain narrow free given can (aligned_native valid whole native u false)
    (fun held => give?_native u held _ _ valid whole native) (fun exchanges held => ?_)
    (u.size_binary _ size_a size_b)⟩
  have commutes : op.commutative = true := by
    simp only [exchangeable, Bool.and_eq_true] at exchanges
    exact exchanges.1
  -- Shifts do not commute, so no count has to be small here.
  have each : op ≠ .shl ∧ op ≠ .shr := by
    constructor <;> rintro rfl <;> contradiction
  have lanes : e.bytes ∣ (s.low x 16).size := by
    rw [size_a]
    exact Nat.dvd_trans (Elem.bytes_dvd valid) (by decide)
  have other := u.binary_eq valid whole native size_b size_a
    fun shift => absurd shift (not_or.mpr each)
  rw [← Lanes.eval?_comm (paired_of_nativeForm? whole native each) commutes valid whole lanes
    (size_a.trans size_b.symm), value fun shift => absurd shift (not_or.mpr each)] at other
  rw [give?_native u held _ _ valid whole native, ← other]

end

/-- Without VEX every operation of three operands that is encoded as it stands leaves what its form
gives on the values that its sources had, whichever of its registers coincide: operations on integer
lanes and comparisons, operations on bits, and the complement. What the form of an operation on lanes
gives are the lanes of the operation, of a shift by one count if that is below the lane width. An
operand in memory has to be aligned only for a strict unit. Only the destination and the temporary
change. -/
theorem destructive_forms_correct (u : VectorUnit) {cfg : Config} (plain : vexed cfg = false)
    (narrow : cfg.physBytes = 16) (s : State) {dst src : Reg} {d x : RegNum}
    (into : vectorNum dst = .ok d) (left : vectorNum src = .ok x) (free : d ≠ tmp ∧ x ≠ tmp)
    {y : Operand} {z : Rm} {b : Bytes} (right : vectorSource y = .ok z)
    (given : s.vector? cfg z = some b) (can : s.Fetchable u cfg.shortAddress z) :
    (∀ (op : Op) (e : Elem) (p : Plan), e.valid = true → e.isFloat = false →
      planOf? cfg op e = some p → p.unit = .none →
      let v := u.binary (nativeForm op e) (s.low x 16) b
      ((ShiftsByOne op → (wordOf (b.toList.take 8)).toNat < e.bits) →
        Lanes.eval? op e (s.low x 16) b = some v) ∧
      Leaves u cfg (select cfg (.arith op e dst src y)) s d v ∧
      (op.isCompare = true → Leaves u cfg (select cfg (.compare op e dst src y)) s d v)) ∧
    (∀ op : Op,
      if op ∈ [.and, .ann, .orr, .xor] then
        ∃ v, (∀ e, Lanes.eval? op e (s.low x 16) b = some v) ∧
          Leaves u cfg (select cfg (.logic op dst src y)) s d v
      else select cfg (.logic op dst src y) = .fail (.unsupported (.logic op))) ∧
    Leaves u cfg (select cfg (.not dst src)) s d ((s.low x 16).map (~~~·)) := by
  refine ⟨?_, ?_, leaves_not plain narrow into left free⟩
  · intro op e p valid whole planned direct v
    obtain ⟨value, leaves⟩ :=
      leaves_binary (u := u) plain narrow into left free right given can valid whole planned direct
    refine ⟨value, leaves, fun compares => ?_⟩
    obtain ⟨level, native⟩ := nativeForm?_of_planned planned direct
    have accepted := nativeCompare_of_nativeForm? whole native compares
    have selected : select cfg (.compare op e dst src y) = selectBinary cfg op e dst src y [] := by
      simp only [select, selectCompare, accepted, if_true, whole, Bool.false_eq_true, if_false]
    rw [selected]
    exact leaves
  · intro op
    by_cases bits : op ∈ [.and, .ann, .orr, .xor]
    · rw [if_pos bits]
      obtain ⟨f, found⟩ : ∃ f, bitForm? op = some f := by
        simp only [List.mem_cons, List.not_mem_nil, or_false] at bits
        rcases bits with rfl | rfl | rfl | rfl <;> exact ⟨_, rfl⟩
      exact leaves_logic plain narrow into left free right given can found
    · rw [if_neg bits]
      simp only [select, selectLogic, into, left, right]
      cases op <;> first | rfl | (exact absurd (by decide) bits)

/-- The destination is the second source of a difference, which is then parked in the temporary, and
of an operation on bits that does not commute either. -/
theorem destructive_forms_parked :
    let cfg := Config.x86 Level.sse2 "sse2" "128" 16 1
    let s : State := {
      gpr := fun _ => 0
      vec := fun r => .replicate 32 (UInt8.ofNat r)
      mem := fun _ => 0
      flags := none }
    (vexed cfg = false ∧ planOf? cfg .sub .u8 = some ⟨.none, 16, 16⟩) ∧
      Leaves .ofLanes cfg (select cfg (.arith .sub .u8 (.xmm 2) (.xmm 5) (.reg (.xmm 2)))) s 2
        (Array.replicate 16 3) ∧
      (∃ v, (∀ e, Lanes.eval? .ann e (s.low 5 16) (s.low 2 16) = some v) ∧
        Leaves .ofLanes cfg (select cfg (.logic .ann (.xmm 2) (.xmm 5) (.reg (.xmm 2)))) s 2 v) ∧
      Leaves .ofLanes cfg (select cfg (.not (.xmm 2) (.xmm 5))) s 2 ((s.low 5 16).map (~~~·)) := by
  intro cfg s
  have plain : vexed cfg = false := by decide
  have planned : planOf? cfg .sub .u8 = some ⟨.none, 16, 16⟩ := by decide
  have right : vectorSource (.reg (.xmm 2)) = .ok (.reg 2) := rfl
  have given : s.vector? cfg (.reg 2) = some (s.low 2 16) := rfl
  have expected : Lanes.eval? .sub .u8 (s.low 5 16) (s.low 2 16) = some (Array.replicate 16 3) := by
    decide +kernel
  obtain ⟨lanes, bits, complement⟩ := destructive_forms_correct .ofLanes plain rfl s
    (show vectorNum (.xmm 2) = .ok 2 from rfl) (show vectorNum (.xmm 5) = .ok 5 from rfl) (by decide)
    right given (fetchable_reg _)
  obtain ⟨value, difference, _⟩ := lanes .sub .u8 _ rfl rfl planned rfl
  rw [← Option.some.inj (expected.symm.trans (value (by decide)))] at difference
  have without := bits .ann
  rw [if_pos (by decide)] at without
  exact ⟨⟨plain, planned⟩, difference, without, complement⟩

end X86

end LaneAsm
