import LaneAsm.Proofs.Halves
import LaneAsm.Proofs.Settled

/-!
Instructions lowered under limits. What a recording backend without limits assembles is assembled
under any limits too: every instruction is lowered to primitives that are recorded, with the same
jumps and the same labels bound (`reassembled`).
-/
namespace LaneAsm

/-! ## Lowering -/

namespace Emission

variable {ι α β : Type}

theorem ok_check {x y : Except Error α} {f g : α → Emission ι β} {b : β}
    (ok : (check x >>= f).outcome = .ok b) (passes : ∀ a, x = .ok a → y = .ok a)
    (next : ∀ a, (f a).outcome = .ok b → (g a).outcome = .ok b) :
    (check y >>= g).outcome = .ok b := by
  obtain ⟨a, passed, rest, -⟩ := check_ok ok
  rw [passes a passed]
  exact next a rest

theorem ok_each {f g : α → Emission ι Unit} {as : List α} (ok : (each f as).outcome = .ok ())
    (next : ∀ a, (f a).outcome = .ok () → (g a).outcome = .ok ()) :
    (each g as).outcome = .ok () := by
  induction as with
  | nil => rfl
  | cons a as ih =>
    obtain ⟨_, first, rest, -⟩ := bind_ok ok
    have here := next a first
    show (Emission.bind (g a) fun _ => each g as).outcome = _
    rw [Emission.bind, here]
    exact ih rest

end Emission

/-- The limits of a backend that lacks nothing. -/
abbrev Limits.none : Limits := ⟨false, false⟩

namespace Program

variable {cfg : Config}

theorem supports_ne_unsupported (limits : Limits) {op : Op} {e : Elem} (applies : op.applies e = true) :
    supports limits op e ≠ .unsupported := by
  unfold supports
  repeat' split
  all_goals simp_all

theorem checkSupported_iff (limits : Limits) (op : Op) (e : Elem) :
    (backend cfg limits).checkSupported op e = .ok () ↔ op.applies e = true := by
  unfold Capability.checkSupported
  constructor
  · intro ok
    split at ok
    · cases ok
    · simp_all
  · intro applies
    rw [if_neg (by simp [applies])]
    exact if_neg (supports_ne_unsupported limits applies)

/-- Comparators that are not recorded as they stand are derived from equality. -/
theorem route_ne_none_iff (limits : Limits) (c : Op) (e : Elem) :
    (backend cfg limits).route c e ≠ .none ↔ c.isCompare = true ∧ c.applies e = true := by
  constructor
  · intro routed
    unfold Capability.route at routed
    split at routed
    · contradiction
    · simp_all
  · rintro ⟨compare, applies⟩
    have valid := Op.valid_of_applies applies
    by_cases native : nativeCompare limits c e = true
    · have direct : (backend cfg limits).route c e = .direct := by
        unfold Capability.route
        dsimp only
        rw [if_neg (by simp [compare, applies])]
        exact if_pos native
      rw [direct]
      decide
    · have limited : limits.equalityOnly = true ∧ e.isFloat = false := by
        simp_all [nativeCompare]
      have least := @supports_ne_unsupported limits .min e (by simp [Op.applies, valid])
      have greatest := @supports_ne_unsupported limits .max e (by simp [Op.applies, valid])
      cases c <;> simp_all [Capability.route, backend, nativeCompare, Op.isCompare, Op.swapped,
        Op.complement]

/-- Limits do not keep an instruction from being lowered. -/
theorem lower_ok (limits : Limits) {i : Instr LabelRef}
    (ok : ((backend cfg .none).lower i).outcome = .ok ()) :
    ((backend cfg limits).lower i).outcome = .ok () := by
  have supported {op : Op} {e : Elem} (_ : Unit)
      (passed : (backend cfg .none).checkSupported op e = .ok ()) :
      (backend cfg limits).checkSupported op e = .ok () :=
    (checkSupported_iff limits op e).2 ((checkSupported_iff .none op e).1 passed)
  cases i with
  | logic op dst s1 s2 =>
    refine Emission.ok_check ok (fun _ => id) fun _ rest => ?_
    refine Emission.ok_each rest fun h half => Emission.ok_check half (fun _ => id) fun y _ => ?_
    dsimp only
    split <;> rfl
  | arith op e dst s1 s2 | shift op e dst src count | shiftEach op e dst src counts =>
    exact Emission.ok_check ok supported fun _ => id
  | compare c e dst s1 s2 =>
    refine Emission.ok_check ok (fun _ => id) fun _ rest => ?_
    dsimp only at rest ⊢
    split at rest
    · cases rest
    · next routed =>
      rw [if_neg ((route_ne_none_iff limits c e).2 ((route_ne_none_iff .none c e).1 routed))]
      exact Emission.ok_each rest fun h half => Emission.ok_check half (fun _ => id) fun _ _ => rfl
  | _ => exact ok

/-! ## Recording -/

theorem check_half_move {limits : Limits} {register : Reg → Except Error Unit}
    {source : Operand → Except Error Unit} {dst src d s : Operand} {h : Nat}
    (passed : Config.checkMove register source dst src = .ok ()) (first : cfg.half dst h = .ok d)
    (second : cfg.half src h = .ok s) : check limits (.move d s) = .ok () := by
  cases dst with
  | reg r =>
    cases first
    rfl
  | mem m =>
    obtain ⟨z, rfl, -⟩ := Config.half_mem first
    obtain ⟨_, _, rest⟩ := bind_eq_ok.mp passed
    cases src with
    | reg r =>
      cases second
      rfl
    | _ => cases rest
  | imm i => cases passed

theorem check_moveBase {limits : Limits} {dst src : Operand}
    (passed : Config.checkMove Config.checkBase Config.checkBaseSource dst src = .ok ()) :
    check limits (.moveBase dst src) = .ok () := by
  cases dst with
  | reg r => rfl
  | mem m =>
    obtain ⟨_, _, rest⟩ := bind_eq_ok.mp passed
    cases src with
    | reg r => rfl
    | _ => cases rest
  | imm i => cases passed

/-- What a comparator is derived with is recorded by the backend that the route was chosen for. -/
theorem check_part {limits : Limits} {c : Op} {e : Elem} (valid : e.valid = true) {d x t : Reg}
    {y : Operand} {p : Primitive} (part : Route.Part (backend cfg limits).toCapability c e d x y t p) :
    check limits p = .ok () := by
  cases part with
  | extreme bound supported =>
    rcases bound with rfl | rfl
    · exact if_pos (by simp [Op.applies, valid])
    · exact if_pos (by simp [Op.applies, valid])
  | compare orders native left right => exact if_pos native
  | load | complement => rfl

/-- Whatever an instruction is lowered to is recorded. -/
theorem lower_checked (limits : Limits) {i : Instr LabelRef} (formed : i.Formed) :
    ∀ p ∈ ((backend cfg limits).lower i).items, check limits p = .ok () := by
  intro p member
  cases ((backend cfg limits).lower_lowered i).items p member with
  | mov passed half into source => exact check_half_move passed into source
  | logic passed half source => exact if_pos (by simp [formed.1, formed.2])
  | complement passed half source part =>
    cases part with
    | complement place => rfl
    | join plain place => rcases plain with rfl | rfl <;> rfl
  | arith supported passed half source => exact if_pos ((checkSupported_iff limits _ _).1 supported)
  | compare routed passed half source part =>
    exact check_part (Route.defined_of_routed routed).2 part
  | @join src cond target passed several => cases cond <;> rfl
  | movBase passed => exact check_moveBase passed
  | arithBase into source => exact if_pos formed
  | _ => rfl

theorem issueAll_checked (cfg : Config) {limits : Limits} {ps : List Primitive}
    (unbound : ∀ l, .bind l ∉ ps) (checked : ∀ x ∈ ps, check limits x = .ok ()) (p : Program) :
    (backend cfg limits).issueAll ps p = (.ok (), ps.foldl record p) := by
  induction ps generalizing p with
  | nil => rfl
  | cons x ps ih =>
    have first : (backend cfg limits).issue x p = (.ok (), p.record x) := by
      have passed := checked x List.mem_cons_self
      cases x with
      | bind l => exact absurd List.mem_cons_self (unbound l)
      | _ => simp only [backend, issue, passed]
    rw [Backend.issueAll, first]
    exact ih (fun l later => unbound l (List.mem_cons_of_mem x later))
      (fun y later => checked y (List.mem_cons_of_mem x later)) (p.record x)

theorem labels_foldl_record (ps : List Primitive) (p : Program) :
    (ps.foldl record p).labels = p.labels := by
  induction ps generalizing p with
  | nil => rfl
  | cons x ps ih => exact ih (p.record x)

theorem targets_foldl_record (ps : List Primitive) (p : Program) :
    (ps.foldl record p).targets.toList = p.targets.toList ++ ps.filterMap target? := by
  induction ps generalizing p with
  | nil => simp
  | cons x ps ih =>
    rw [List.foldl_cons, ih]
    cases jump : target? x <;> simp [record, jump]

/-- Two programs with the same jumps and the same labels bound. -/
structure Alike (p q : Program) : Prop where
  bound : ∀ l, (q.labels.lookup l).isSome = (p.labels.lookup l).isSome
  targets : q.targets.toList = p.targets.toList

theorem Alike.unbound {p q : Program} (alike : p.Alike q) (ls : List LabelRef) :
    q.unbound ls = p.unbound ls := by
  induction ls with
  | nil => rfl
  | cons l ls ih =>
    have bound := alike.bound l
    cases here : p.labels.lookup l with
    | none =>
      have there : q.labels.lookup l = none := by simpa [here] using bound
      cases l <;> simp only [Program.unbound, here, there]
    | some n =>
      rw [here] at bound
      obtain ⟨m, there⟩ := Option.isSome_iff_exists.1 bound
      simp only [Program.unbound, here, there, ih]

theorem Alike.finish {p q : Program} (alike : p.Alike q) (cfg : Config) (limits limits' : Limits) :
    ((backend cfg limits').finish q).1 = ((backend cfg limits).finish p).1 := by
  show (q.unbound q.targets.toList).map _ = (p.unbound p.targets.toList).map _
  rw [alike.targets, alike.unbound]

/-- Limits change no jump of an instruction. -/
theorem targets_lower (limits : Limits) (i : Instr LabelRef) :
    ((backend cfg limits).lower i).items.filterMap target? =
      ((backend cfg .none).lower i).items.filterMap target? := by
  have none (limits : Limits) (still : i.target? = none) :
      ((backend cfg limits).lower i).items.filterMap target? = [] := by
    rw [List.filterMap_eq_nil_iff]
    intro p member
    rcases ((backend cfg limits).lower_follows i p member).2 with none | same
    · exact none
    · exact same.trans still
  cases i with
  | maskJump src cond target | compareJump x y cond target | jump target => rfl
  | _ => rw [none limits rfl, none .none rfl]

theorem Alike.issue {limits : Limits} {i : Instr LabelRef} (formed : i.Formed) {p p' q : Program}
    (alike : p.Alike q)
    (issued : (backend cfg .none).issueAll ((backend cfg .none).lower i).items p = (.ok (), p')) :
    ∃ q', (backend cfg limits).issueAll ((backend cfg limits).lower i).items q = (.ok (), q') ∧
      p'.Alike q' := by
  by_cases binding : ∃ l, i = .bind l
  · obtain ⟨l, rfl⟩ := binding
    obtain ⟨fresh, rfl⟩ := issueAll_bind issued
    have free : q.labels.lookup l = none := by
      have bound := alike.bound l
      rw [fresh] at bound
      exact Option.not_isSome_iff_eq_none.1 (by simp [bound])
    refine ⟨{ q with labels := (l, q.steps.size) :: q.labels }, ?_, fun k => ?_, alike.targets⟩
    · show (backend cfg limits).issueAll [.bind l] q = _
      simp only [Backend.issueAll, backend, Program.issue, Program.bind, free]
    · simp only [List.lookup_cons]
      split
      · rfl
      · exact alike.bound k
  · have other (l : LabelRef) : i ≠ .bind l := fun same => binding ⟨l, same⟩
    have recorded := issueAll_checked cfg (Capability.bind_not_mem_lower other)
      (@lower_checked cfg .none i formed) p
    obtain rfl := congrArg Prod.snd (recorded.symm.trans issued)
    refine ⟨_, issueAll_checked cfg (Capability.bind_not_mem_lower other)
      (lower_checked limits formed) q, fun l => ?_, ?_⟩
    · rw [labels_foldl_record, labels_foldl_record, alike.bound]
    · rw [targets_foldl_record, targets_foldl_record, alike.targets, targets_lower limits]

end Program

theorem Assembler.issue_eq {σ : Type} {b : Backend σ} {a : Assembler σ} {i : Instr LabelRef} {s : σ}
    (clean : a.error? = none) (lowered : (b.lower i).outcome = .ok ())
    (issued : b.issueAll (b.lower i).items a.state = (.ok (), s)) :
    a.issue b i = (.ok (), ⟨s, a.count + 1, none⟩) := by
  simp only [issue, clean, issued, lowered]
  rfl

open Program in
/-- What is assembled without limits is assembled under any limits. -/
theorem reassembled {cfg : Config} (limits : Limits) {is : List (Instr LabelRef)}
    (formed : ∀ i ∈ is, i.Formed) {a a' b : Assembler Program} (ready : b.error? = none)
    (alike : a.state.Alike b.state) (assembled : a.issueAll (backend cfg .none) is = .ok a')
    (clean : a'.error? = none) :
    ∃ b', b.issueAll (backend cfg limits) is = .ok b' ∧ b'.error? = none ∧
      a'.state.Alike b'.state := by
  induction is generalizing a b with
  | nil =>
    cases assembled
    exact ⟨b, rfl, ready, alike⟩
  | cons i is ih =>
    rw [Assembler.issueAll] at assembled
    cases first : a.issue (backend cfg .none) i with
    | mk outcome a₁ =>
      cases outcome with
      | error f =>
        rw [first] at assembled
        cases assembled
      | ok _ =>
        rw [first] at assembled
        obtain ⟨between, -⟩ := issueAll_blocks assembled clean
        obtain ⟨-, lowered, done⟩ := Assembler.issue_clean first between
        have here := formed i List.mem_cons_self
        obtain ⟨q, issued, alike⟩ := alike.issue here done
        have next := Assembler.issue_eq ready (lower_ok limits lowered) issued
        obtain ⟨b', rest, ready, alike⟩ := ih (fun j later => formed j (List.mem_cons_of_mem i later))
          (b := ⟨q, b.count + 1, none⟩) rfl alike assembled
        refine ⟨b', ?_, ready, alike⟩
        rw [Assembler.issueAll, next]
        exact rest

end LaneAsm
