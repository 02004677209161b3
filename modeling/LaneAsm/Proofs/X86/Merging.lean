import LaneAsm.Catalog.BuiltIn
import LaneAsm.Proofs.X86.Vectors

/-!
Moves under a mask. They are encoded in four ways, by what a target has and by which register holds
the mask: nothing at all where source and destination are one, a blend in VEX or outside of it, or
three operations on bits. All of them leave the bits of the source where the mask is set and those of
the destination elsewhere (`merges_agree`). A blend looks at the top bit of each byte of the mask, so
it agrees where bytes are uniform, as comparisons give them. Outside VEX the blend and the operations
on bits take the source from memory themselves, so on a strict unit they fault where it is not aligned.
-/
namespace LaneAsm.X86

open State

/-! ## Vectors under a mask -/

/-- The bytes of `b` under a mask and those of `a` elsewhere, by operations on bits. -/
def masked (k a b : Bytes) : Bytes :=
  Array.zipWith (fun x y => x ||| y) (Array.zipWith (fun m y => m &&& y) k b)
    (Array.zipWith (fun m x => ~~~m &&& x) k a)

theorem or_under_mask (m x : UInt8) : m &&& x ||| ~~~m &&& x = x := by
  rw [← UInt8.toBitVec_inj]
  simp only [UInt8.toBitVec_or, UInt8.toBitVec_and, UInt8.toBitVec_not]
  grind

theorem choose_under_mask {m : UInt8} (uniform : m = 0 ∨ m = 0xFF) (x y : UInt8) :
    (if 0x80 ≤ m then y else x) = m &&& y ||| ~~~m &&& x := by
  rcases uniform with rfl | rfl
  · simp
  · show y = -1 &&& y ||| ~~~(-1) &&& x
    simp

section
variable {n : Nat} {k a b : Bytes} (mask : k.size = n) (first : a.size = n)
include mask first

theorem masked_self : masked k a a = a := by
  apply Array.ext
  · simp [masked, mask, first]
  · intro i _ _
    simp only [masked, Array.getElem_zipWith, or_under_mask]

variable (second : b.size = n)
include second

theorem size_masked : (masked k a b).size = n := by simp [masked, mask, first, second]

theorem merge?_eq : Lanes.merge? a b k = some (masked k a b) := by
  have fits : (a.size ≤ b.size && a.size ≤ k.size) = true := by simp [mask, first, second]
  have exchange (x y m : UInt8) : y &&& m ||| x &&& ~~~m = m &&& y ||| ~~~m &&& x := by
    rw [UInt8.and_comm y, UInt8.and_comm x]
  rw [Lanes.merge?, if_pos fits]
  congr 1
  apply Array.ext
  · simp [masked, mask, first, second]
  · intro i _ _
    simp only [masked, Array.getElem_zipWith, Array.getElem_zip]
    exact exchange ..

omit first in
theorem size_and : (Array.zipWith (fun m y => m &&& y) k b).size = n := by simp [mask, second]

omit second in
theorem size_andNot : (Array.zipWith (fun m x => ~~~m &&& x) k a).size = n := by simp [mask, first]

/-- A blend takes whole bytes, as a mask of uniform bytes does. -/
theorem blend_eq (uniform : ∀ c ∈ k, c = 0 ∨ c = 0xFF) : blend k a b = masked k a b := by
  apply Array.ext
  · simp [blend, masked, mask, first, second]
  · intro i inside _
    have bound : i < k.size := by
      simp only [blend, Array.size_zipWith] at inside
      omega
    simp only [blend, masked, Array.getElem_zipWith, Array.getElem_zip]
    exact choose_under_mask (uniform k[i] (Array.getElem_mem bound)) ..

end

/-! ## Encodings -/

section
variable {u : VectorUnit} {short : Bool} {s : State} {d m : RegNum} {x : Rm} {b : Bytes}

/-- A blend in VEX. -/
theorem reaches_vpblendvb {long : Bool} {n : Nat} (length : vectorBytes long = n)
    (given : s.bytes? short n x = some b) (uniform : ∀ c ∈ s.low m n, c = 0 ∨ c = 0xFF) :
    s.Reaches u short [.vex .vpblendvb long d d x [UInt8.ofNat (m.val * 16)]] fun t =>
      t.low d n = masked (s.low m n) (s.low d n) b ∧ Alters [d, tmp] s t := by
  subst length
  have fits := vectorBytes_le long
  have size_b := size_bytes? fits given
  have size (r : RegNum) := size_low s r fits
  refine .vex (by decide) given (give?_vpblendvb ..) ?_ fun t here alters => .done ⟨?_, alters.mono (by simp)⟩
  · rw [blend_eq (size m) (size d) size_b uniform]
    exact size_masked (size m) (size d) size_b
  · rw [here, blend_eq (size m) (size d) size_b uniform]

/-- A blend without VEX, whose mask is the first register. -/
theorem reaches_pblendvb (given : s.bytes? short 16 x = some b) (can : s.Fetchable u short x)
    (uniform : ∀ c ∈ s.low 0 16, c = 0 ∨ c = 0xFF) :
    s.Reaches u short [.legacy .pblendvb d x []] fun t =>
      t.low d 16 = masked (s.low 0 16) (s.low d 16) b ∧ Alters [d, tmp] s t := by
  have size_b := size_bytes? (by decide) given
  have size (r : RegNum) : (s.low r 16).size = 16 := size_low s r (by decide)
  refine .legacy given can (give?_pblendvb ..) ?_ fun t here alters => .done ⟨?_, alters.mono (by simp)⟩
  · rw [blend_eq (size 0) (size d) size_b uniform]
    exact size_masked (size 0) (size d) size_b
  · rw [here, blend_eq (size 0) (size d) size_b uniform]

variable (into : d ≠ tmp) (mask : m ≠ tmp) (apart : x ≠ .reg d) (apart' : x ≠ .reg tmp)
include into mask apart apart'

omit into mask in
theorem source_apart : ∀ r, x = .reg r → r ∉ [d, tmp] := by
  rintro r rfl member
  simp only [List.mem_cons, List.not_mem_nil, or_false] at member
  rcases member with rfl | rfl
  · exact apart rfl
  · exact apart' rfl

omit apart in
/-- Three operations on bits in VEX. The destination may be the mask, which is read before. -/
theorem reaches_bits_vex {long : Bool} {n : Nat} (length : vectorBytes long = n)
    (given : s.bytes? short n x = some b) :
    s.Reaches u short [.vex .andnps long tmp m (.reg d) [], .vex .andps long d m x [],
      .vex .orps long d d (.reg tmp) []] fun t =>
        t.low d n = masked (s.low m n) (s.low d n) b ∧ Alters [d, tmp] s t := by
  subst length
  have fits := vectorBytes_le long
  have size_b := size_bytes? fits given
  have size (r : RegNum) := size_low s r fits
  refine .vex (by decide) rfl (give?_andnps ..) (size_andNot (size m) (size d)) fun t₁ rest alters₁ => ?_
  have mask₁ : t₁.low m (vectorBytes long) = s.low m (vectorBytes long) :=
    alters₁.low (by simpa using mask) _
  have given₁ : t₁.bytes? short (vectorBytes long) x = some b := by
    rw [alters₁.bytes? fun r source => ?_, given]
    rintro member
    rw [source, List.mem_singleton.mp member] at apart'
    exact apart' rfl
  refine .vex (by decide) given₁ (give?_andps ..) ?_ fun t₂ taken alters₂ => ?_
  · rw [mask₁]
    exact size_and (size m) size_b
  have rest₂ : t₂.low tmp (vectorBytes long) = t₁.low tmp (vectorBytes long) :=
    alters₂.low (by simpa using into.symm) _
  rw [mask₁] at taken
  rw [rest] at rest₂
  refine .vex (by decide) rfl (give?_orps ..) ?_ fun t here alters₃ => .done ⟨?_, ?_⟩
  · rw [taken, rest₂]
    exact size_masked (size m) (size d) size_b
  · rw [here, taken, rest₂]
    rfl
  · exact ((alters₁.mono (by simp)).trans (alters₂.mono (by simp))).trans (alters₃.mono (by simp))

omit apart apart' in
/-- What comes before the source is read, without VEX: the temporary gets the bits that stay, and the
destination the mask. -/
theorem reaches_front {cfg : Config} (plain : vexed cfg = false) :
    s.Reaches u short (copy cfg false tmp m ++ [.legacy .andnps tmp (.reg d) []] ++ copy cfg false d m)
      fun t => t.low d 16 = s.low m 16 ∧
        t.low tmp 16 = Array.zipWith (fun m x => ~~~m &&& x) (s.low m 16) (s.low d 16) ∧
        Alters [d, tmp] s t := by
  have size (r : RegNum) : (s.low r 16).size = 16 := size_low s r (by decide)
  simp only [List.append_assoc, List.cons_append, List.nil_append]
  refine .copy plain fun t₁ copied alters₁ => ?_
  have old₁ : t₁.low d 16 = s.low d 16 := alters₁.low (by simpa using into) 16
  refine .legacy rfl (fun _ => rfl) (give?_andnps ..) ?_ fun t₂ rest alters₂ => ?_
  · rw [copied, old₁]
    exact size_andNot (size m) (size d)
  rw [copied, old₁] at rest
  have before : Alters [tmp] s t₂ := alters₁.trans alters₂
  rw [← List.append_nil (copy cfg false d m)]
  refine .copy plain fun t₃ moved alters₃ => .done ⟨?_, ?_, ?_⟩
  · rw [moved, before.low (by simpa using mask)]
  · rw [alters₃.low (by simpa using into.symm), rest]
  · exact (before.mono (by simp)).trans (alters₃.mono (by simp))

/-- Three operations on bits without VEX, each of which overwrites its first source. The mask is
copied for the first two, and where it is also the source the second is left out. -/
theorem reaches_bits {cfg : Config} (plain : vexed cfg = false)
    (given : s.bytes? short 16 x = some b) (can : s.Fetchable u short x) :
    s.Reaches u short (copy cfg false tmp m ++ [.legacy .andnps tmp (.reg d) []] ++ copy cfg false d m
      ++ (if x = .reg m then [] else [.legacy .andps d x []])
      ++ [.legacy .orps d (.reg tmp) []]) fun t =>
        t.low d 16 = masked (s.low m 16) (s.low d 16) b ∧ Alters [d, tmp] s t := by
  have size_b := size_bytes? (by decide) given
  have size (r : RegNum) : (s.low r 16).size = 16 := size_low s r (by decide)
  have finish {w : State} (changed : Alters [d, tmp] s w)
      (taken : w.low d 16 = Array.zipWith (fun m y => m &&& y) (s.low m 16) b)
      (kept : w.low tmp 16 = Array.zipWith (fun m x => ~~~m &&& x) (s.low m 16) (s.low d 16)) :
      w.Reaches u short [.legacy .orps d (.reg tmp) []] fun t =>
        t.low d 16 = masked (s.low m 16) (s.low d 16) b ∧ Alters [d, tmp] s t := by
    refine .legacy rfl (fun _ => rfl) (give?_orps ..) ?_ fun t here alters => .done ⟨?_, ?_⟩
    · rw [taken, kept]
      exact size_masked (size m) (size d) size_b
    · rw [here, taken, kept]
      rfl
    · exact changed.trans (alters.mono (by simp))
  rw [List.append_assoc _ (if x = .reg m then _ else _)]
  refine (reaches_front into mask plain).append fun t ⟨moved, rest, before⟩ => ?_
  by_cases same : x = .reg m
  · subst same
    obtain rfl := Option.some.inj given
    rw [if_pos rfl]
    refine finish before ?_ rest
    rw [moved]
    simp
  · rw [if_neg same]
    have given₁ : t.bytes? short 16 x = some b := by
      rw [before.bytes? (source_apart apart apart'), given]
    refine .legacy given₁ (before.fetchable can) (give?_andps ..) ?_ fun t₁ taken alters => ?_
    · rw [moved]
      exact size_and (size m) size_b
    rw [moved] at taken
    refine finish (before.trans (alters.mono (by simp))) taken ?_
    rw [alters.low (by simpa using into.symm), rest]

end

/-- Outside VEX a strict unit faults on a source that is not aligned, whichever way the move is
encoded. -/
theorem run_merge_of_misaligned {u : VectorUnit} {cfg : Config} (plain : vexed cfg = false)
    (narrow : cfg.physBytes = 16) {s : State} {dst mask : Reg} {d m : RegNum}
    (into : vectorNum dst = .ok d) (under : vectorNum mask = .ok m) {src : Operand} {x : Rm}
    (source : vectorSource src = .ok x) (free : d ≠ tmp ∧ m ≠ tmp)
    (off : ¬ s.Fetchable u cfg.shortAddress x) :
    (select cfg (.merge dst src mask)).outcome = .ok () ∧
      s.run u cfg.shortAddress (select cfg (.merge dst src mask)).items = none := by
  obtain ⟨strict, off⟩ : u.strict = true ∧ s.misaligned cfg.shortAddress 16 x = true := by
    simpa [Fetchable] using off
  have memory (r : RegNum) : x ≠ .reg r := by
    rintro rfl
    cases off
  have short : wide cfg = false := by simp [wide, narrow]
  have selected : select cfg (.merge dst src mask) =
      if x = .reg d then .emitAll []
      else if blends cfg && m == 0 then .emit (.legacy .pblendvb d x [])
      else .emitAll (copy cfg false tmp m ++ [.legacy .andnps tmp (.reg d) []] ++ copy cfg false d m
        ++ (if x = .reg m then [] else [.legacy .andps d x []])
        ++ [.legacy .orps d (.reg tmp) []]) := by
    simp only [select, selectMerge, into, under, source, plain, short, Bool.false_eq_true, if_false]
    rfl
  rw [if_neg (memory d), if_neg (memory m)] at selected
  rw [selected]
  by_cases blending : (blends cfg && m == 0) = true
  · rw [if_pos blending]
    have start : s.run u cfg.shortAddress [] = some s := rfl
    exact ⟨rfl, run_of_fault start (exec_of_misaligned (fun _ => rfl) strict off d []) []⟩
  · rw [if_neg blending]
    have front : s.Reaches u cfg.shortAddress _ _ := reaches_front free.1 free.2 plain
    obtain ⟨t, ran, -, -, alters⟩ := front
    refine ⟨rfl, ?_⟩
    have fault := exec_of_misaligned (f := .andps) (s := t) (fun _ => rfl) strict
      ((alters.misaligned x 16).trans off) d []
    have stops := run_of_fault ran fault [.legacy .orps d (.reg tmp) []]
    rw [Emission.emitAll, List.append_assoc _ [Insn.legacy .andps d x []]]
    exact stops

/-- Every encoding of a move under a mask leaves the bits of the source where the mask is set and
those of the destination elsewhere, whichever of its registers coincide. The bytes of the mask are
each all clear or all set. Only the destination and the temporary change. Outside VEX this takes a
source that does not fault; with one that does the instructions do not run to their end. -/
theorem merges_agree (u : VectorUnit) {cfg : Config}
    (width : cfg.physBytes = 16 ∨ cfg.physBytes = 32 ∧ vexed cfg = true) (s : State)
    {dst mask : Reg} {d m : RegNum} (into : vectorNum dst = .ok d) (under : vectorNum mask = .ok m)
    {src : Operand} {x : Rm} {b : Bytes} (source : vectorSource src = .ok x)
    (given : s.vector? cfg x = some b) (free : d ≠ tmp ∧ m ≠ tmp ∧ x ≠ .reg tmp)
    (uniform : ∀ c ∈ s.low m cfg.physBytes, c = 0 ∨ c = 0xFF) :
    ((vexed cfg = false → s.Fetchable u cfg.shortAddress x) →
      ∃ v, Lanes.merge? (s.low d cfg.physBytes) b (s.low m cfg.physBytes) = some v ∧
        Leaves u cfg (select cfg (.merge dst src mask)) s d v) ∧
    (vexed cfg = false → ¬ s.Fetchable u cfg.shortAddress x →
      (select cfg (.merge dst src mask)).outcome = .ok () ∧
        s.run u cfg.shortAddress (select cfg (.merge dst src mask)).items = none) := by
  have narrow (plain : vexed cfg = false) : cfg.physBytes = 16 := by
    rcases width with narrow | ⟨_, vexes⟩
    · exact narrow
    · rw [plain] at vexes
      cases vexes
  refine ⟨fun can => ?_, fun plain off =>
    run_merge_of_misaligned plain (narrow plain) into under source ⟨free.1, free.2.1⟩ off⟩
  have fits : cfg.physBytes ≤ 32 := by omega
  have length : vectorBytes (wide cfg) = cfg.physBytes := by
    rcases width with width | ⟨width, _⟩ <;> simp [vectorBytes, wide, width]
  rw [vector?_eq] at given
  have size_b := size_bytes? fits given
  have size (r : RegNum) := size_low s r fits
  refine ⟨_, merge?_eq (size m) (size d) size_b, .check into (.check under (.check source ?_))⟩
  by_cases self : x = .reg d
  · subst self
    obtain rfl := Option.some.inj given
    rw [if_pos rfl, masked_self (size m) (size d)]
    exact ⟨rfl, .done ⟨rfl, .refl ..⟩⟩
  rw [if_neg self]
  by_cases vex : vexed cfg = true
  · rw [if_pos vex]
    by_cases blending : blends cfg = true
    · rw [if_pos blending]
      exact ⟨rfl, reaches_vpblendvb length given uniform⟩
    · rw [if_neg blending]
      exact ⟨rfl, reaches_bits_vex free.1 free.2.1 free.2.2 length given⟩
  · rw [if_neg vex]
    have plain : vexed cfg = false := by simpa using vex
    rw [narrow plain] at given uniform
    by_cases blending : (blends cfg && m == 0) = true
    · rw [if_pos blending]
      obtain rfl : m = 0 := by
        simp only [Bool.and_eq_true, beq_iff_eq] at blending
        exact blending.2
      refine ⟨rfl, ?_⟩
      rw [narrow plain]
      exact reaches_pblendvb given (can plain) uniform
    · rw [if_neg blending]
      refine ⟨rfl, ?_⟩
      rw [narrow plain]
      exact reaches_bits free.1 free.2.1 self free.2.2 plain given (can plain)

/-- The mask is the destination, and a register that the blend of the target cannot take it from. The
source is aligned. -/
theorem merges_agree_in_place :
    let cfg := Config.x86 Level.sse4 "sse4" "128x2" 16 2
    let s : State := {
      gpr := fun _ => 0x1000
      vec := fun _ => .ofFn fun i => if i.val % 2 = 0 then 0xFF else 0
      mem := fun _ => 0x5A
      flags := none }
    let src : Operand := .mem (.plain (.base 0) ⟨0x40, .dp⟩)
    (VectorUnit.ofLanes.strict = true ∧ blends cfg = true ∧ vexed cfg = false ∧
      ∀ c ∈ s.low 8 16, c = 0 ∨ c = 0xFF) ∧
      Leaves .ofLanes cfg (select cfg (.merge (.xmm 8) src (.xmm 8))) s 8
        (List.replicate 8 [0x5A, 0]).flatten.toArray := by
  intro cfg s src
  have uniform : ∀ c ∈ s.low 8 16, c = 0 ∨ c = 0xFF := by decide +kernel
  have source : vectorSource src = .ok (.mem (.plain (.base 0) ⟨0x40, .dp⟩)) := rfl
  have given : s.vector? cfg (.mem (.plain (.base 0) ⟨0x40, .dp⟩)) = some (s.mem.read 0x1040 16) := by
    decide +kernel
  have aligned : s.misaligned cfg.shortAddress 16 (.mem (.plain (.base 0) ⟨0x40, .dp⟩)) = false := by
    decide +kernel
  have expected : Lanes.merge? (s.low 8 16) (s.mem.read 0x1040 16) (s.low 8 16) =
      some (List.replicate 8 [0x5A, 0]).flatten.toArray := by
    decide +kernel
  obtain ⟨v, value, leaves⟩ := (merges_agree .ofLanes (.inl rfl) s
    (show vectorNum (.xmm 8) = .ok 8 from rfl) (show vectorNum (.xmm 8) = .ok 8 from rfl) source given
    (by decide) uniform).1 fun _ _ => aligned
  obtain rfl := Option.some.inj (expected.symm.trans value)
  exact ⟨⟨rfl, by decide, by decide, uniform⟩, leaves⟩

/-- A source in memory four bytes past a multiple of sixteen: what the move should leave is there, and
yet the instructions do not run to their end, so nothing is left. -/
theorem misaligned_merge_faults :
    let cfg := Config.x86 Level.sse2 "sse2" "128" 16 1
    let s : State := {
      gpr := fun _ => 0x1000
      vec := fun _ => .replicate 32 0xFF
      mem := fun _ => 0x5A
      flags := none }
    let x : Mem := .plain (.base 5) ⟨4, .dp⟩
    (VectorUnit.ofLanes.strict = true ∧ vexed cfg = false ∧ ∀ c ∈ s.low 2 16, c = 0 ∨ c = 0xFF) ∧
      s.vector? cfg (.mem x) = some (.replicate 16 0x5A) ∧
      Lanes.merge? (s.low 1 16) (.replicate 16 0x5A) (s.low 2 16) = some (.replicate 16 0x5A) ∧
      ¬ ∃ v, Leaves .ofLanes cfg (select cfg (.merge (.xmm 1) (.mem x) (.xmm 2))) s 1 v := by
  intro cfg s x
  have off : s.misaligned cfg.shortAddress 16 (.mem x) = true := by decide +kernel
  have faults : ¬ s.Fetchable .ofLanes cfg.shortAddress (.mem x) := by
    intro can
    rw [can rfl] at off
    cases off
  refine ⟨⟨rfl, by decide, by decide +kernel⟩, by decide +kernel, by decide +kernel, ?_⟩
  rintro ⟨v, -, t, ran, -⟩
  obtain ⟨-, stops⟩ := run_merge_of_misaligned (show vexed cfg = false from rfl) rfl
    (show vectorNum (.xmm 1) = .ok 1 from rfl) (show vectorNum (.xmm 2) = .ok 2 from rfl)
    (show vectorSource (.mem x) = .ok (.mem x) from rfl) (by decide) faults
  rw [stops] at ran
  cases ran

end LaneAsm.X86
