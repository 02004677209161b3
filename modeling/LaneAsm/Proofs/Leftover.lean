import LaneAsm.Proofs.Branches
import LaneAsm.Proofs.Msa.Failing
import LaneAsm.Proofs.X86.Failing
import Mathlib.Control.Monad.Basic

/-!
What a call that fails leaves behind. Labels and references stay as they were after any error. Code
stays as it was unless the request is one that encodes something before it is refused, and a failed
finish leaves the fields that it wrote before the reference it could not resolve
(`failed_call_leaves`). A recorded program never changes.
-/
namespace LaneAsm

/-! ## Appending -/

/-- Items that lengthen a buffer, leave its labels alone and refer to labels only in jumps. -/
structure Appends {ι : Type} (add : Buffer → ι → Buffer) (jumps : ι → Prop) : Prop where
  size : ∀ s i, s.size < (add s i).size
  labels : ∀ s i, (add s i).labels = s.labels
  fixups : ∀ s i, ¬ jumps i → (add s i).fixups = s.fixups

namespace Appends

variable {ι : Type} {add : Buffer → ι → Buffer} {jumps : ι → Prop}

theorem size_le (appends : Appends add jumps) (items : List ι) (s : Buffer) :
    s.size ≤ (items.foldl add s).size := by
  induction items generalizing s with
  | nil => exact Nat.le_refl _
  | cons i items ih =>
    have here := appends.size s i
    have rest := ih (add s i)
    rw [List.foldl_cons]
    omega

/-- Nothing appended is the only way to change nothing. -/
theorem foldl_eq_self (appends : Appends add jumps) (items : List ι) (s : Buffer) :
    items.foldl add s = s ↔ items = [] := by
  cases items with
  | nil => exact iff_of_true rfl rfl
  | cons i items =>
    refine iff_of_false ?_ (List.cons_ne_nil _ _)
    intro same
    have here := appends.size s i
    have rest := appends.size_le items (add s i)
    rw [List.foldl_cons] at same
    rw [same] at rest
    omega

theorem labels_foldl (appends : Appends add jumps) (items : List ι) (s : Buffer) :
    (items.foldl add s).labels = s.labels := by
  induction items generalizing s with
  | nil => rfl
  | cons i items ih => rw [List.foldl_cons, ih, appends.labels]

theorem fixups_foldl (appends : Appends add jumps) {items : List ι} (straight : ∀ i ∈ items, ¬ jumps i)
    (s : Buffer) : (items.foldl add s).fixups = s.fixups := by
  induction items generalizing s with
  | nil => rfl
  | cons i items ih =>
    obtain ⟨here, rest⟩ := List.forall_mem_cons.1 straight
    rw [List.foldl_cons, ih rest, appends.fixups s i here]

/-- What is left of the items of an emission that an error ended. -/
theorem failed (appends : Appends add jumps) {x : Emission ι Unit} {stray : Prop}
    (leaves : x.Leaves stray) (straight : stray → ∀ i ∈ x.items, ¬ jumps i) {e : Error}
    (ended : x.outcome = .error (.error e)) (s : Buffer) :
    (x.items.foldl add s).labels = s.labels ∧ (x.items.foldl add s).fixups = s.fixups ∧
      (x.items.foldl add s = s ↔ ¬ stray) := by
  have decided := leaves e ended
  refine ⟨appends.labels_foldl _ s, ?_, (appends.foldl_eq_self _ s).trans decided⟩
  by_cases late : stray
  · exact appends.fixups_foldl (straight late) s
  · rw [decided.mpr late]
    rfl

end Appends

theorem X86.appends (short : Bool) :
    Appends (Insn.append short) fun i => i.target? ≠ none where
  size s i := by
    have bytes : 0 < (i.bytes short).length := by
      cases i <;>
        (simp only [Insn.bytes, shortForm, List.length_append, List.length_cons]; omega)
    rw [X86.append_eq_put, Branching.size_put, Branching.length_all]
    show s.size < s.size + ((i.bytes short).length + _)
    omega
  labels s i := by rw [X86.append_eq_put, Branching.labels_put]
  fixups s i straight := by
    have none : i.target? = none := Decidable.not_not.mp straight
    simp only [Insn.append, none]
    rfl

theorem Msa.appends : Appends Msa.Item.append fun x => ∃ i l, x = .jump i l where
  size s x := by
    have bytes : x.piece.bytes.length = 4 := by
      cases x <;> simp [Item.piece, length_littleEndian]
    rw [Msa.append_eq_put, Branching.size_put, Branching.length_all, bytes]
    omega
  labels s x := by rw [Msa.append_eq_put, Branching.labels_put]
  fixups s x straight := by
    cases x with
    | insn i => rfl
    | jump i l => exact absurd ⟨i, l, rfl⟩ straight

/-! ## Requests -/

/-- What is left of a request that stages its sources is no jump. -/
theorem X86.straight_of_stray {cfg : Config} {p : Primitive} (stray : Stray cfg p) :
    ∀ i ∈ (select cfg p).items, ¬ i.target? ≠ none := by
  intro i member jumps
  have aimless : p.target? = none := by
    cases p <;> first | rfl | exact stray.elim
  rcases (select_safe cfg p).items i member with plain | ⟨l, target, _⟩
  · cases i <;> first | exact jumps rfl | exact plain.elim
  · rw [aimless] at target
    cases target

theorem Msa.straight_of_stray {cfg : Config} {p : Primitive} (stray : Stray p) :
    ∀ x ∈ (select cfg p).items, ¬ ∃ i l, x = .jump i l := by
  have quiet : (select cfg p).Safe False (Item.Of none) := by
    cases p with
    | logic op d x y => exact (selectLogic_safe op d x fun never => never.elim)
    | arithBase op d y => exact (selectArithBase_safe op d fun never => never.elim)
    | compareJump c x y l =>
      refine .check fun _ _ => (baseSource_safe fun never => never.elim).bind fun _ _ => ?_
      cases c with
      | other code => exact .fail _
      | _ => exact absurd (by decide) stray.1
    | _ => exact stray.elim
  rintro x member ⟨i, l, rfl⟩
  obtain ⟨_, target⟩ := quiet.items _ member
  cases target

/-- The requests that an encoder refuses after it has encoded something. -/
def Branching.Stray (br : Branching) (cfg : Config) (p : Primitive) : Prop :=
  match br with
  | .x86 => X86.Stray cfg p
  | .mips => Msa.Stray p

theorem Branching.not_stray_bind (br : Branching) (cfg : Config) (l : LabelRef) :
    ¬ br.Stray cfg (.bind l) := by
  cases br <;> exact id

theorem Branching.failed_issue (br : Branching) (cfg : Config) (p : Primitive) (s : Buffer)
    {e : Error} (failed : ((br.backend cfg).issue p s).1 = .error (.error e)) :
    ((br.backend cfg).issue p s).2.labels = s.labels ∧
      ((br.backend cfg).issue p s).2.fixups = s.fixups ∧
      (((br.backend cfg).issue p s).2 = s ↔ ¬ br.Stray cfg p) := by
  by_cases binding : ∃ l, p = .bind l
  · obtain ⟨l, rfl⟩ := binding
    rw [(br.lays cfg).bind] at failed ⊢
    cases bound : s.bind l with
    | ok s' =>
      rw [bound] at failed
      cases failed
    | error fault => exact ⟨rfl, rfl, iff_of_true rfl (br.not_stray_bind cfg l)⟩
  · cases br with
    | x86 =>
      have issued : (X86.backend cfg).issue p s = ((X86.select cfg p).outcome,
          (X86.select cfg p).items.foldl (X86.Insn.append cfg.shortAddress) s) := by
        cases p <;> first | rfl | exact absurd ⟨_, rfl⟩ binding
      simp only [backend, issued] at failed ⊢
      exact (X86.appends _).failed (X86.select_leaves cfg p) X86.straight_of_stray failed s
    | mips =>
      have issued : (Msa.backend cfg).issue p s = ((Msa.select cfg p).outcome,
          (Msa.select cfg p).items.foldl Msa.Item.append s) := by
        cases p <;> first | rfl | exact absurd ⟨_, rfl⟩ binding
      simp only [backend, issued] at failed ⊢
      exact Msa.appends.failed (Msa.select_leaves cfg p) Msa.straight_of_stray failed s

/-! ## Finishing -/

/-- Writing back what is there changes nothing. -/
theorem Bytes.write_self {v : Bytes} {o n : Nat} {x : UInt64} (inside : o + n ≤ v.size) (short : n ≤ 8)
    (same : (v.readWord o n).toNat % 256 ^ n = x.toNat % 256 ^ n) : v.write o (littleEndian n x) = v := by
  have length : ((v.toList.drop o).take n).length = n := by
    simp
    omega
  have bytes : littleEndian n x = (v.toList.drop o).take n := by
    have spelt := littleEndian_wordOf ((v.toList.drop o).take n) (by omega)
    rw [length, ← readWord_eq] at spelt
    rw [← spelt]
    exact littleEndian_congr short same.symm
  apply Array.toList_inj.mp
  rw [toList_write _ _ _ (by rw [bytes, length]; exact inside), bytes, length, List.append_assoc,
    ← List.drop_drop, List.take_append_drop, List.take_append_drop]

namespace Branching

variable {br : Branching} {labels : Array (Option Nat)} {code : Bytes}

/-- The field of a reference holds the distance to its label. -/
def Points (br : Branching) (s : Buffer) (f : Fixup) : Prop :=
  ∃ t, Buffer.target? s.labels f = some t ∧ f.origin + br.unit * br.field s.code f.site.toNat = t

/-- A field that holds its distance is written with what it holds. -/
theorem patch_self {f : Fixup} (placed : br.Placed labels code.size f) (short : code.size < 2 ^ 63)
    {t : Nat} (target : Buffer.target? labels f = some t) (near : br.Reaches (t - f.origin))
    (points : f.origin + br.unit * br.field code f.site.toNat = t) :
    Buffer.patch labels code f = .ok code := by
  rw [patch_eq placed short, target]
  dsimp only
  rw [if_pos near]
  obtain ⟨kind, least, origin, inside, whole⟩ := placed
  have counted : ((t : Int) - f.origin) / br.unit = br.field code f.site.toNat := by
    cases br <;> simp only [unit] at points ⊢ <;> omega
  rw [counted]
  refine congrArg Except.ok (Bytes.write_self ?_ (by cases br <;> decide) ?_)
  · have narrow := br.width_le
    omega
  · have value := toNat_ofInt (br.field code f.site.toNat)
    unfold field at value ⊢
    generalize (code.readWord f.site.toNat br.width).toNat = word at value ⊢
    cases br with
    | x86 =>
      simp only [width] at value ⊢
      simp only [Int.bmod] at value ⊢
      omega
    | mips =>
      simp only [width] at value ⊢
      simp only [Int.bmod] at value ⊢
      omega

/-- Where all references resolve, nothing is written anew exactly if each field holds its distance
already. -/
theorem patchAll_eq_self {fs : List Fixup} (placed : ∀ f ∈ fs, br.Placed labels code.size f)
    (apart : fs.Pairwise fun f g => f.origin ≤ g.site) (short : code.size < 2 ^ 63)
    (resolve : ∀ f ∈ fs, br.Resolves labels f) :
    (Buffer.patchAll labels fs code).2 = code ↔
      ∀ f ∈ fs, ∃ t, Buffer.target? labels f = some t ∧
        f.origin + br.unit * br.field code f.site.toNat = t := by
  constructor
  · intro same f member
    obtain ⟨t, target, points⟩ := (patchAll_ok placed apart short resolve).2 f member
    rw [same] at points
    exact ⟨t, target, points⟩
  · intro points
    clear apart
    induction fs with
    | nil => rfl
    | cons f fs ih =>
      obtain ⟨here, rest⟩ := List.forall_mem_cons.1 placed
      obtain ⟨⟨t, target, near⟩, others⟩ := List.forall_mem_cons.1 resolve
      obtain ⟨⟨t', target', leads⟩, later⟩ := List.forall_mem_cons.1 points
      obtain rfl := Option.some.inj (target.symm.trans target')
      rw [Buffer.patchAll, patch_self here short target near leads]
      exact ih rest others later

/-- Resolving stops at the first reference that is refused. -/
theorem patchAll_stops {before after : List Fixup} {f : Fixup}
    (placed : ∀ g ∈ before ++ f :: after, br.Placed labels code.size g) (short : code.size < 2 ^ 63)
    (resolve : ∀ g ∈ before, br.Resolves labels g) {c : Cause} (refused : br.Refused labels f c) :
    (Buffer.patchAll labels (before ++ f :: after) code).2 = (Buffer.patchAll labels before code).2 := by
  induction before generalizing code with
  | nil =>
    have stops := patch_refused (placed f List.mem_cons_self) short refused
    simp only [List.nil_append, Buffer.patchAll, stops]
  | cons g before ih =>
    obtain ⟨here, rest⟩ := List.forall_mem_cons.1 placed
    obtain ⟨⟨t, target, near⟩, others⟩ := List.forall_mem_cons.1 resolve
    obtain ⟨code', patched, size, -⟩ := patch_ok here short target near
    rw [List.cons_append, Buffer.patchAll, Buffer.patchAll, patched]
    exact ih (size.symm ▸ rest) (size.symm ▸ short) others

/-- A failed finish has resolved the references before the one it refused. -/
theorem Laid.failed_finish {s : Buffer} (laid : br.Laid s) (short : s.size < 2 ^ 63) {e : Error}
    (failed : s.finish.1 = .error (.error e)) :
    s.finish.2.labels = s.labels ∧ s.finish.2.fixups = s.fixups ∧
      ∃ before f after, s.fixups.toList = before ++ f :: after ∧
        (∀ g ∈ before, br.Resolves s.labels g) ∧ ¬ br.Resolves s.labels f ∧
        (s.finish.2 = s ↔ ∀ g ∈ before, br.Points s g) := by
  refine ⟨rfl, rfl, ?_⟩
  rcases br.all_resolve_or_refused s.labels s.fixups.toList with
    all | ⟨before, f, after, c, split, resolve, refused⟩
  · have ended := (laid.finish_ok short fun f member => all f (Array.mem_toList_iff.2 member)).1
    rw [ended] at failed
    cases failed
  · refine ⟨before, f, after, split, resolve, refused.not_resolves, ?_⟩
    have placed : ∀ g ∈ before ++ f :: after, br.Placed s.labels s.code.size g := by
      intro g member
      exact laid.placed (Array.mem_toList_iff.1 (split ▸ member))
    have apart : before.Pairwise fun f g => f.origin ≤ g.site := by
      have all := split ▸ laid.apart
      exact (List.pairwise_append.mp all).1.imp fun behind => by omega
    have code : s.finish.2.code = (Buffer.patchAll s.labels before s.code).2 := by
      show (Buffer.patchAll s.labels s.fixups.toList s.code).2 = _
      rw [split, patchAll_stops placed short resolve refused]
    have whole : s.finish.2 = s ↔ s.finish.2.code = s.code := by
      constructor
      · intro same
        rw [same]
      · intro same
        show { s with code := s.finish.2.code } = s
        rw [same]
    rw [whole, code]
    exact patchAll_eq_self (fun g member => placed g (List.mem_append_left _ member)) apart short resolve

end Branching

/-! ## Any call -/

/-- A request that a recording backend refuses leaves the program as it was. -/
theorem Program.failed_issue (limits : Limits) (p : Primitive) (q : Program) {fault : Fault}
    (failed : (Program.issue limits p q).1 = .error fault) : (Program.issue limits p q).2 = q := by
  cases p with
  | bind l =>
    cases bound : q.bind l with
    | ok q' =>
      simp only [Program.issue, bound] at failed
      cases failed
    | error fault => simp only [Program.issue, bound]
  | _ =>
    simp only [Program.issue] at failed ⊢
    split
    · next passed =>
      rw [passed] at failed
      cases failed
    · rfl

/-- What a call that fails leaves behind, after any calls on a fresh encoder. Labels and references
are what they were. A request leaves the code as it was exactly if it is not one of those that encode
something before they are refused. A finish leaves it as it was exactly if the references before the
one it refused hold their distances already. A recorded program is what it was. -/
theorem failed_call_leaves (br : Branching) (cfg : Config) (calls : List Call)
    (short : (br.after cfg calls).size < 2 ^ 63) :
    let b := br.backend cfg
    let s := br.after cfg calls
    (∀ p e, (b.issue p s).1 = .error (.error e) →
      (b.issue p s).2.labels = s.labels ∧ (b.issue p s).2.fixups = s.fixups ∧
        ((b.issue p s).2 = s ↔ ¬ br.Stray cfg p)) ∧
    (∀ e, (b.finish s).1 = .error (.error e) →
      (b.finish s).2.labels = s.labels ∧ (b.finish s).2.fixups = s.fixups ∧
        ∃ before f after, s.fixups.toList = before ++ f :: after ∧
          (∀ g ∈ before, br.Resolves s.labels g) ∧ ¬ br.Resolves s.labels f ∧
          ((b.finish s).2 = s ↔ ∀ g ∈ before, br.Points s g)) ∧
    ∀ limits (q : Program),
      (∀ p fault, ((Program.backend cfg limits).issue p q).1 = .error fault →
        ((Program.backend cfg limits).issue p q).2 = q) ∧
      ((Program.backend cfg limits).finish q).2 = q := by
  intro b s
  refine ⟨fun p e failed => br.failed_issue cfg p s failed, fun e failed => ?_, fun limits q => ?_⟩
  · have laid : br.Laid s := Call.laid_runAll (br.lays cfg) br.laid_empty calls
    rw [(br.lays cfg).finish] at failed ⊢
    exact laid.failed_finish short failed
  · exact ⟨fun p fault failed => Program.failed_issue limits p q failed, rfl⟩

/-- Behind a jump that cannot be resolved, a joined complement is refused at once, and a shift by one
count that is asked for as an operation on two sources is refused once both are staged. -/
theorem failed_call_leaves_staged :
    let cfg := Config.x86 Level.sse2 "sse2" "128" 16 1
    let s := Branching.x86.after cfg [.instr (.jump none)]
    let joined : Primitive := .logic .orn (.xmm 1) (.xmm 2) (.reg (.xmm 3))
    let shift : Primitive := .arith .shl .u8 (.xmm 1) (.xmm 2) (.reg (.xmm 3))
    s.size < 2 ^ 63 ∧ ((X86.backend cfg).issue joined s).2 = s ∧
      ((X86.backend cfg).issue shift s).2 ≠ s := by
  intro cfg s joined shift
  have short : s.size < 2 ^ 63 := by decide +kernel
  have ⟨requests, _, _⟩ := failed_call_leaves .x86 cfg [.instr (.jump none)] short
  have refused : ((X86.backend cfg).issue shift s).1
      = .error (.error (.ofCause (.unsupported (.scalar .shl .u8)))) := by
    decide +kernel
  have first := (requests joined (.ofCause (.unsupported (.logic .orn))) rfl).2.2
  have second := (requests shift _ refused).2.2
  have stray : X86.Stray cfg shift := by
    refine ⟨.inr ⟨⟨.scalar, 16, 1⟩, by decide +kernel, rfl, by decide, .inl rfl⟩, ?_⟩
    simp [Reg.InFile, Reg.xmm, X86.Sourced]
  exact ⟨short, first.mpr id, fun same => second.mp same stray⟩

/-- A product of a base register with an immediate has no encoding, but the immediate is loaded before
that is noticed. -/
theorem refused_product_left_behind :
    (Branching.mips.backend (.mips .mips32 "128" 1 32 32)).issue
        (.arithBase .mul (.base 0) (.imm ⟨5, .ib⟩)) .empty
      = (.error (.error (.ofCause (.unsupported (.base .mul)))),
        { Buffer.empty with code := #[0x05, 0x00, 0x19, 0x24] }) :=
  rfl

end LaneAsm
