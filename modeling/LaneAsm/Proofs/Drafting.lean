import LaneAsm.Proofs.Lowering
import LaneAsm.Proofs.Pieces

/-!
Branches with their label left open. What an encoder appends for an instruction depends on the label of
the instruction only in where the branches lead (`Backend.Drafts`), and an instruction that jumps leaves
a branch behind unless it fails.
-/
namespace LaneAsm

/-- A piece that may be a branch, to a label that is given later. -/
structure Draft where
  bytes : List UInt8
  jumps : Bool

/-- The piece of a draft for a label. -/
def Draft.toward (l : LabelRef) (d : Draft) : Piece := ⟨d.bytes, if d.jumps then some l else none⟩

/-! ## Emissions -/

namespace Emission

variable {ι α β : Type} {piece : ι → Piece} {jumps : Bool}

/-- An emission over a label whose items are drafts for it; if `jumps`, there is a branch among them
unless it fails. -/
def Drafted (piece : ι → Piece) (jumps : Bool) (x : LabelRef → Emission ι α) : Prop :=
  ∃ (outcome : Except Fault α) (drafts : List Draft),
    (∀ l, (x l).outcome = outcome ∧ (x l).items.map piece = drafts.map (Draft.toward l)) ∧
      (jumps → ∀ a, outcome = .ok a → ∃ d ∈ drafts, d.jumps)

namespace Drafted

/-- Items that are no branches, whatever the label. -/
theorem const {x : Emission ι α} (plain : ∀ i ∈ x.items, (piece i).target = none) :
    Drafted piece false fun _ => x := by
  refine ⟨x.outcome, x.items.map fun i => ⟨(piece i).bytes, false⟩, fun l => ⟨rfl, ?_⟩, nofun⟩
  rw [List.map_map]
  refine List.map_congr_left fun i member => ?_
  show piece i = ⟨(piece i).bytes, none⟩
  rw [← plain i member]

theorem fail (c : Cause) : Drafted piece jumps fun _ => (.fail c : Emission ι α) :=
  ⟨Fault.fail c, [], fun _ => ⟨rfl, rfl⟩, fun _ _ => nofun⟩

theorem bind {x : LabelRef → Emission ι α} {f : α → LabelRef → Emission ι β}
    (first : Drafted piece false x) (rest : ∀ a, Drafted piece jumps (f a)) :
    Drafted piece jumps fun l => x l >>= fun a => f a l := by
  obtain ⟨outcome, drafts, items, -⟩ := first
  cases outcome with
  | error e =>
    refine ⟨.error e, drafts, fun l => ?_, fun _ _ => nofun⟩
    obtain ⟨ended, same⟩ := items l
    show (Emission.bind (x l) _).outcome = _ ∧ (Emission.bind (x l) _).items.map piece = _
    rw [Emission.bind, ended]
    exact ⟨rfl, same⟩
  | ok a =>
    obtain ⟨outcome', drafts', items', leads⟩ := rest a
    refine ⟨outcome', drafts ++ drafts', fun l => ?_, fun wanted b done => ?_⟩
    · obtain ⟨ended, same⟩ := items l
      obtain ⟨ended', same'⟩ := items' l
      show (Emission.bind (x l) _).outcome = _ ∧ (Emission.bind (x l) _).items.map piece = _
      rw [Emission.bind, ended]
      refine ⟨ended', ?_⟩
      rw [List.map_append, List.map_append, same, same']
    · obtain ⟨d, member, branch⟩ := leads wanted b done
      exact ⟨d, List.mem_append_right drafts member, branch⟩

/-- A branch to the label, behind items that are none. -/
theorem emitAll (is : List ι) {i : LabelRef → ι} {bytes : List UInt8}
    (plain : ∀ i ∈ is, (piece i).target = none) (branch : ∀ l, piece (i l) = ⟨bytes, some l⟩) :
    Drafted piece jumps fun l => .emitAll (is ++ [i l]) := by
  have front : Drafted piece false fun _ => Emission.emitAll is := const plain
  obtain ⟨_, drafts, same, -⟩ := front
  refine ⟨.ok (), drafts ++ [⟨bytes, true⟩], fun l => ⟨rfl, ?_⟩, fun _ _ _ =>
    ⟨_, List.mem_append_right drafts (List.mem_singleton_self _), rfl⟩⟩
  have items : is.map piece = drafts.map (Draft.toward l) := (same l).2
  show (is ++ [i l]).map piece = _
  rw [List.map_append, List.map_append, items, List.map_singleton, branch]
  rfl

theorem emit {i : LabelRef → ι} {bytes : List UInt8} (branch : ∀ l, piece (i l) = ⟨bytes, some l⟩) :
    Drafted piece jumps fun l => .emit (i l) :=
  emitAll [] (List.forall_mem_nil _) branch

theorem check {x : Except Error α} {f : α → LabelRef → Emission ι β}
    (rest : ∀ a, Drafted piece jumps (f a)) :
    Drafted piece jumps fun l => Emission.check x >>= fun a => f a l :=
  (const (List.forall_mem_nil _)).bind rest

end Drafted

end Emission

/-! ## Encoders -/

/-- A primitive with its label replaced, if it jumps to one. -/
def Primitive.toward (l : LabelRef) : Primitive → Primitive
  | .maskJump src cond _ => .maskJump src cond l
  | .compareJump cond x y _ => .compareJump cond x y l
  | .jump _ => .jump l
  | p => p

theorem Primitive.toward_of_target? {p : Primitive} (here : p.target? = none) (l : LabelRef) :
    p.toward l = p := by
  cases p <;> first | rfl | cases here

theorem Primitive.toward_of_target?_eq_some {p : Primitive} {l : LabelRef}
    (jumps : p.target? = some l) : p.toward l = p := by
  cases p <;> cases jumps <;> rfl

theorem Primitive.toward_ne_bind {p : Primitive} (other : ∀ l, p ≠ .bind l) (l m : LabelRef) :
    p.toward l ≠ .bind m := by
  cases p with
  | bind l' => exact absurd rfl (other l')
  | _ => exact nofun

/-- An encoder that leaves the label of a primitive open. -/
def Backend.Drafts (br : Branching) (b : Backend Buffer) : Prop :=
  ∀ p : Primitive, (∀ l, p ≠ .bind l) → ∃ (outcome : Except Fault Unit) (drafts : List Draft),
    (∀ d ∈ drafts, ∀ l, br.Formed (d.toward l)) ∧
      (∀ l s, b.issue (p.toward l) s = (outcome, (drafts.map (Draft.toward l)).foldl br.put s)) ∧
      (p.target? ≠ none → outcome = .ok () → ∃ d ∈ drafts, d.jumps)

/-- An encoder that appends the items it selects leaves labels open where they are drafted. -/
theorem Backend.drafts_of_select {ι : Type} {br : Branching} {b : Backend Buffer}
    {select : Primitive → Emission ι Unit} {append : Buffer → ι → Buffer} {piece : ι → Piece}
    (issues : ∀ p : Primitive, (∀ l, p ≠ .bind l) → ∀ s,
      b.issue p s = ((select p).outcome, (select p).items.foldl append s))
    (appends : ∀ s i, append s i = br.put s (piece i))
    (formed : ∀ p, ∀ i ∈ (select p).items, br.Formed (piece i))
    (drafted : ∀ p : Primitive, Emission.Drafted piece p.target?.isSome fun l => select (p.toward l)) :
    b.Drafts br := by
  intro p other
  obtain ⟨outcome, drafts, items, leads⟩ := drafted p
  refine ⟨outcome, drafts, fun d member l => ?_, fun l s => ?_, fun jumps done => ?_⟩
  · have among : d.toward l ∈ (select (p.toward l)).items.map piece := by
      rw [(items l).2]
      exact List.mem_map_of_mem member
    obtain ⟨i, selected, same⟩ := List.mem_map.1 among
    rw [← same]
    exact formed _ i selected
  · obtain ⟨ended, same⟩ := items l
    have puts : append = fun s i => br.put s (piece i) := funext fun s => funext (appends s)
    rw [issues _ (Primitive.toward_ne_bind other l), ended, ← same, List.foldl_map, puts]
  · exact leads (Option.isSome_iff_ne_none.2 jumps) () done

namespace X86

open Emission

/-- An instruction as a piece. -/
def Insn.piece (short : Bool) (i : Insn) : Piece := ⟨i.bytes short, i.target?⟩

theorem target?_of_plain {R : Prop} {i : Insn} (plain : i.Plain R) : i.target? = none := by
  cases i <;> first | rfl | exact plain.elim

theorem selectMaskJump_drafted (cfg : Config) (short : Bool) (src : Reg) (cond : MaskCond) :
    Drafted (Insn.piece short) true (selectMaskJump cfg src cond) := by
  have jumps {test : Insn} (tested : test.target? = none) (long : Bool) (x : RegNum) :
      Drafted (Insn.piece short) true fun target => (Emission.emitAll [.push rax,
        op2 cfg .pmovmskb long rax (.reg x), test, .pop rax, .jcc 0x4 target] : Selection Unit) := by
    have moved : (op2 cfg .pmovmskb long rax (.reg x)).target? = none :=
      target?_of_plain (R := True) (plain_op2 (by decide) ..)
    refine .emitAll [_, _, _, _] ?_ fun l => rfl
    simp only [List.forall_mem_cons]
    exact ⟨rfl, moved, tested, rfl, List.forall_mem_nil _⟩
  refine .check fun s => ?_
  dsimp only
  split
  · refine (Drafted.const ?_).bind fun _ => ?_
    · simp only [Emission.emitAll, List.forall_mem_cons]
      exact ⟨rfl, rfl, List.forall_mem_nil _⟩
    · cases cond with
      | none => exact jumps rfl _ _
      | full => exact jumps rfl _ _
  · cases cond with
    | none => exact jumps rfl _ _
    | full => exact jumps rfl _ _

theorem selectCompareJump_drafted (cfg : Config) (short : Bool) (c : Cond) (x : Reg) (y : Operand) :
    Drafted (Insn.piece short) true (selectCompareJump cfg c x y) := by
  refine .check fun d => ?_
  cases conditionCode? c with
  | none => exact .fail _
  | some cc =>
    have compared : Quiet True (selectAlu cfg .cmp d y) := selectAlu_quiet rfl rfl d y
    have quiet : Drafted (Insn.piece short) false fun _ => selectAlu cfg .cmp d y :=
      .const fun i member => target?_of_plain (compared.items i member)
    exact quiet.bind fun _ => .emit fun l => rfl

theorem drafted_select (cfg : Config) (short : Bool) (p : Primitive) :
    Drafted (Insn.piece short) p.target?.isSome fun l => select cfg (p.toward l) := by
  by_cases jumps : p.target? = none
  · rw [jumps]
    simp only [Primitive.toward_of_target? jumps]
    refine .const fun i member => ?_
    rcases (select_safe cfg p).items i member with plain | ⟨l, target, -⟩
    · exact target?_of_plain plain
    · rw [jumps] at target
      cases target
  cases p with
  | maskJump src cond target => exact selectMaskJump_drafted cfg short src cond
  | compareJump cond x y target => exact selectCompareJump_drafted cfg short cond x y
  | jump target => exact .emit fun l => rfl
  | _ => exact absurd rfl jumps

theorem drafts (cfg : Config) : (backend cfg).Drafts .x86 := by
  refine Backend.drafts_of_select (fun p other s => ?_) (append_eq_put cfg.shortAddress)
    (fun _ i _ => piece_formed cfg.shortAddress i) (drafted_select cfg cfg.shortAddress)
  show issue cfg p s = _
  cases p <;> first | rfl | exact absurd rfl (other _)

end X86

namespace Msa

open Emission

theorem target_of_other {x : Item} (safe : x.Of none) : x.piece.target = none := by
  cases x with
  | insn i => rfl
  | jump i l => cases safe.2

theorem selectCompareJump_drafted (cfg : Config) (c : Cond) (x : Reg) (y : Operand) :
    Drafted Item.piece true (selectCompareJump cfg c x y) := by
  have source : Drafted Item.piece false fun _ => baseSource cfg y :=
    .const fun i member => target_of_other ((baseSource_safe (S := False) nofun).items i member)
  have put (i : Insn) : Drafted Item.piece false fun _ => put i :=
    .const (List.forall_mem_singleton.2 rfl)
  refine .check fun _ => source.bind fun _ => ?_
  dsimp only
  split
  · exact .emit fun l => rfl
  · exact .emit fun l => rfl
  · split
    · exact (put _).bind fun _ => .emit fun l => rfl
    · exact .fail _

theorem drafted_select (cfg : Config) (p : Primitive) :
    Drafted Item.piece p.target?.isSome fun l => select cfg (p.toward l) := by
  by_cases jumps : p.target? = none
  · have safe := select_safe cfg p
    rw [jumps] at safe ⊢
    simp only [Primitive.toward_of_target? jumps]
    exact .const fun x member => target_of_other (safe.items x member)
  cases p with
  | maskJump src cond target =>
    refine .check fun s => Drafted.bind (.const (List.forall_mem_singleton.2 rfl)) fun _ => ?_
    exact .emit fun l => rfl
  | compareJump cond x y target => exact selectCompareJump_drafted cfg cond x y
  | jump target => exact .emit fun l => rfl
  | _ => exact absurd rfl jumps

theorem drafts (cfg : Config) : (backend cfg).Drafts .mips := by
  refine Backend.drafts_of_select (fun p other s => ?_) append_eq_put
    (fun p x member => piece_formed ((select_safe cfg p).items x member)) (drafted_select cfg)
  show issue cfg p s = _
  cases p <;> first | rfl | exact absurd rfl (other _)

end Msa

/-! ## Instructions -/

theorem Instr.mapLabel_of_target? {L : Type} {i : Instr L} {l : L} (jumps : i.target? = some l) :
    i.mapLabel (fun _ => l) = i := by
  cases i <;> cases jumps <;> rfl

namespace Capability

variable {L : Type}

/-- Lowering leaves the label of an instruction open as well. -/
theorem lower_toward (cap : Capability) {i : Instr L} (other : ∀ m, i ≠ .bind m) (l : LabelRef) :
    cap.lower (i.mapLabel fun _ => l)
      = ⟨(cap.lower (i.mapLabel fun _ => none)).items.map (Primitive.toward l),
        (cap.lower (i.mapLabel fun _ => none)).outcome⟩ := by
  have still (j : Instr LabelRef) (here : j.target? = none) :
      cap.lower j = ⟨(cap.lower j).items.map (Primitive.toward l), (cap.lower j).outcome⟩ := by
    have same : (cap.lower j).items.map (Primitive.toward l) = (cap.lower j).items := by
      refine (List.map_congr_left fun p member => ?_).trans (List.map_id _)
      have target := (cap.lower_follows j p member).2
      rw [here, or_self] at target
      exact Primitive.toward_of_target? target l
    rw [same]
  cases i with
  | bind m => exact absurd rfl (other m)
  | maskJump src cond m =>
    simp only [Instr.mapLabel, lower]
    cases checked : cap.config.checkVector src with
    | error e => rfl
    | ok u =>
      by_cases single : cap.config.halves = 1
      · simp only [single, if_true]
        rfl
      · simp only [single, if_false]
        rfl
  | compareJump x y cond m =>
    simp only [Instr.mapLabel, lower]
    cases Config.checkBase x with
    | error e => rfl
    | ok u =>
      cases Config.checkBaseSource y with
      | error e => rfl
      | ok u => cases cond <;> rfl
  | jump m => rfl
  | _ => exact still _ rfl

/-- An instruction that jumps is lowered to a primitive that does, unless it fails. -/
theorem exists_target_of_lower (cap : Capability) {i : Instr LabelRef} (jumps : i.target? ≠ none)
    (done : (cap.lower i).outcome = .ok ()) : ∃ p ∈ (cap.lower i).items, p.target? ≠ none := by
  cases i with
  | maskJump src cond m =>
    rw [(lower_maskJump done).2]
    split
    · exact ⟨_, List.mem_singleton_self _, nofun⟩
    · exact ⟨_, List.mem_cons_of_mem _ (List.mem_singleton_self _), nofun⟩
  | compareJump x y cond m | jump m =>
    rw [lower_single rfl done]
    exact ⟨_, List.mem_singleton_self _, nofun⟩
  | _ => exact absurd rfl jumps

end Capability

namespace Backend.Drafts

variable {br : Branching} {b : Backend Buffer} {L : Type}

theorem all (drafted : b.Drafts br) {ps : List Primitive} (other : ∀ p ∈ ps, ∀ l, p ≠ .bind l) :
    ∃ (outcome : Except Fault Unit) (drafts : List Draft),
      (∀ d ∈ drafts, ∀ l, br.Formed (d.toward l)) ∧
      (∀ l s, b.issueAll (ps.map (Primitive.toward l)) s
        = (outcome, (drafts.map (Draft.toward l)).foldl br.put s)) ∧
      ((∃ p ∈ ps, p.target? ≠ none) → outcome = .ok () → ∃ d ∈ drafts, d.jumps) := by
  induction ps with
  | nil =>
    refine ⟨.ok (), [], List.forall_mem_nil _, fun _ _ => rfl, ?_⟩
    rintro ⟨_, member, _⟩
    exact absurd member List.not_mem_nil
  | cons p ps ih =>
    obtain ⟨here, others⟩ := List.forall_mem_cons.1 other
    obtain ⟨outcome, drafts, formed, issued, leads⟩ := drafted p here
    cases outcome with
    | error e =>
      refine ⟨.error e, drafts, formed, fun l s => ?_, ?_⟩
      · rw [List.map_cons, Backend.issueAll, issued]
      · intro _ done
        cases done
    | ok u =>
      obtain ⟨outcome, later, formed', issued', leads'⟩ := ih others
      refine ⟨outcome, drafts ++ later, List.forall_mem_append.2 ⟨formed, formed'⟩, fun l s => ?_, ?_⟩
      · rw [List.map_cons, Backend.issueAll, issued, List.map_append, List.foldl_append]
        exact issued' l _
      · rintro ⟨q, member, jumps⟩ done
        rcases List.mem_cons.1 member with rfl | member
        · obtain ⟨d, among, branch⟩ := leads jumps rfl
          exact ⟨d, List.mem_append_left later among, branch⟩
        · obtain ⟨d, among, branch⟩ := leads' ⟨q, member, jumps⟩ done
          exact ⟨d, List.mem_append_right drafts among, branch⟩

/-- What an instruction over label names appends: it fails or succeeds whatever the label, and one that
jumps and succeeds leaves a branch to it. -/
theorem instr (drafted : b.Drafts br) {i : Instr L} (other : ∀ m, i ≠ .bind m) :
    ∃ (outcome : Except Fault Unit) (drafts : List Draft),
      (∀ d ∈ drafts, ∀ l, br.Formed (d.toward l)) ∧
      (∀ l s, b.issueAll (b.lower (i.mapLabel fun _ => l)).items s
        = (outcome, (drafts.map (Draft.toward l)).foldl br.put s)) ∧
      (∀ l, (b.lower (i.mapLabel fun _ => l)).outcome
        = (b.lower (i.mapLabel fun _ => none)).outcome) ∧
      (i.target? ≠ none → outcome = .ok () → (b.lower (i.mapLabel fun _ => none)).outcome = .ok () →
        ∃ d ∈ drafts, d.jumps) := by
  have unbound : ∀ p ∈ (b.lower (i.mapLabel fun _ => none)).items, ∀ l, p ≠ .bind l := by
    intro p member l bound
    have binds := (b.lower_follows _ p member).1 l bound
    cases i with
    | bind m => exact other m rfl
    | _ => cases binds
  obtain ⟨outcome, drafts, formed, issued, leads⟩ := drafted.all unbound
  refine ⟨outcome, drafts, formed, fun l s => ?_, fun l => ?_, fun jumps ended done => ?_⟩
  · rw [b.lower_toward other]
    exact issued l s
  · rw [b.lower_toward other]
  · refine leads (b.exists_target_of_lower ?_ done) ended
    cases i <;> first | exact absurd rfl jumps | exact nofun

end Backend.Drafts

end LaneAsm
