import LaneAsm.Catalog.BuiltIn
import LaneAsm.Proofs.Run
import LaneAsm.Proofs.Session

/-!
The step limit of runs. A program passes through the same machines on every run from a machine
(`Program.Passes`), and where it comes to an end of its own, it ends in the same way whatever the
limit (`Program.Ends`). A limit cuts this off: a run either ends within its limit, or it stops before
the next step with all its steps used up (`Program.ends_or_passes`). Main statement: `limit_truncates`.
-/
namespace LaneAsm

/-! ## Faults of a step -/

/-- A computation that never reports the step limit. -/
def Unlimited {α : Type} (x : Except Fault α) : Prop :=
  ∀ f, x = .error f → f.kind? ≠ some .stepLimit

namespace Unlimited

variable {α β : Type}

theorem ok (a : α) : Unlimited (.ok a) := by
  intro f failed
  cases failed

theorem trap : Unlimited (α := α) (.error .trap) := by
  intro f failed
  cases failed
  exact (Option.some_ne_none _).symm

theorem fail {c : Cause} (other : c.kind? ≠ some .stepLimit) : Unlimited (α := α) (Fault.fail c) := by
  intro f failed
  cases failed
  exact other

theorem bind {x : Except Fault α} {g : α → Except Fault β} (first : Unlimited x)
    (rest : ∀ a, Unlimited (g a)) : Unlimited (x >>= g) := by
  intro f failed
  cases x with
  | ok a => exact rest a f failed
  | error f' =>
    obtain rfl : f' = f := Except.error.inj failed
    exact first f' rfl

theorem orTrap (x : Option α) : Unlimited (Machine.orTrap x) := by
  cases x with
  | some a => exact ok a
  | none => exact trap

end Unlimited

namespace Machine

variable (cfg : Config) (m : Machine)

theorem unlimited_index (r : Reg) : Unlimited (index r) := by
  unfold index
  split
  · exact .ok _
  · exact .trap

theorem unlimited_vector (r : Reg) : Unlimited (m.vector r) :=
  (unlimited_index r).bind fun _ => .ok _

theorem unlimited_setVector (r : Reg) (v : Bytes) : Unlimited (m.setVector r v) :=
  (unlimited_index r).bind fun _ => .ok _

theorem unlimited_base (r : Reg) : Unlimited (m.base r) :=
  (unlimited_index r).bind fun _ => .ok _

theorem unlimited_setBase (r : Reg) (x : UInt64) : Unlimited (m.setBase r x) :=
  (unlimited_index r).bind fun _ => .ok _

theorem unlimited_address (x : Mem) : Unlimited (m.address cfg x) := by
  refine (m.unlimited_base x.base).bind fun b => ?_
  cases x.index with
  | none => exact .ok _
  | some i => exact (m.unlimited_base i).bind fun _ => .ok _

theorem unlimited_locate (x : Mem) (n : Nat) : Unlimited (m.locate cfg x n) := by
  refine (m.unlimited_address cfg x).bind fun a => ?_
  split
  · exact .fail (by simp [Cause.kind?])
  · split
    · exact .trap
    · exact .ok _

theorem unlimited_load (x : Mem) (n : Nat) : Unlimited (m.load cfg x n) :=
  (m.unlimited_locate cfg x n).bind fun _ => .ok _

theorem unlimited_store (x : Mem) (v : Bytes) : Unlimited (m.store cfg x v) :=
  (m.unlimited_locate cfg x v.size).bind fun _ => .ok _

theorem unlimited_vectorOf (o : Operand) : Unlimited (m.vectorOf cfg o) := by
  cases o with
  | reg r => exact m.unlimited_vector r
  | mem x => exact m.unlimited_load cfg x _
  | imm i => exact .fail (by simp [Cause.kind?])

theorem unlimited_baseOf (o : Operand) : Unlimited (m.baseOf cfg o) := by
  cases o with
  | reg r => exact (m.unlimited_base r).bind fun _ => .ok _
  | mem x => exact (m.unlimited_load cfg x _).bind fun _ => .orTrap _
  | imm i => exact .ok _

theorem unlimited_countOf (e : Elem) (o : Operand) : Unlimited (m.countOf cfg e o) := by
  cases o with
  | reg r => exact .fail (by simp [Cause.kind?])
  | mem x => exact (m.unlimited_load cfg x _).bind fun _ => .orTrap _
  | imm i => exact .ok _

theorem unlimited_binary (op : Op) (e : Elem) (d s : Reg) (o : Operand) :
    Unlimited (m.binary cfg op e d s o) :=
  (m.unlimited_vectorOf cfg o).bind fun _ => (m.unlimited_vector s).bind fun _ =>
    (Unlimited.orTrap _).bind fun _ => m.unlimited_setVector d _

theorem unlimited_effect (x : Primitive) : Unlimited (m.effect cfg x) := by
  cases x with
  | move d s =>
    cases d with
    | reg d => exact (m.unlimited_vectorOf cfg s).bind fun _ => m.unlimited_setVector d _
    | mem d =>
      cases s with
      | reg s => exact (m.unlimited_vector s).bind fun _ => m.unlimited_store cfg d _
      | _ => exact .ok m
    | imm i => exact .ok m
  | logic op d s o => exact m.unlimited_binary cfg op .u8 d s o
  | not d s =>
    exact (m.unlimited_vector s).bind fun _ => (Unlimited.orTrap _).bind fun _ =>
      m.unlimited_setVector d _
  | arith op e d s o => exact m.unlimited_binary cfg op e d s o
  | shift op e d s count =>
    exact (m.unlimited_countOf cfg e count).bind fun _ => (m.unlimited_vector s).bind fun _ =>
      (Unlimited.orTrap _).bind fun _ => m.unlimited_setVector d _
  | shiftEach op e d s o => exact m.unlimited_binary cfg op e d s o
  | compare op e d s o => exact m.unlimited_binary cfg op e d s o
  | merge d s mask =>
    exact (m.unlimited_vectorOf cfg s).bind fun _ => (m.unlimited_vector d).bind fun _ =>
      (m.unlimited_vector mask).bind fun _ => (Unlimited.orTrap _).bind fun _ =>
        m.unlimited_setVector d _
  | moveBase d s =>
    cases d with
    | reg d => exact (m.unlimited_baseOf cfg s).bind fun _ => m.unlimited_setBase d _
    | mem d =>
      cases s with
      | reg s =>
        exact (m.unlimited_base s).bind fun _ => (Unlimited.orTrap _).bind fun _ =>
          m.unlimited_store cfg d _
      | _ => exact .ok m
    | imm i => exact .ok m
  | arithBase op d s =>
    exact (m.unlimited_baseOf cfg s).bind fun _ => (m.unlimited_base d).bind fun _ =>
      m.unlimited_setBase d _
  | shiftBase op signed d count => exact (m.unlimited_base d).bind fun _ => m.unlimited_setBase d _
  | _ => exact .ok m

theorem unlimited_jumpOf (x : Primitive) : Unlimited (m.jumpOf cfg x) := by
  cases x with
  | maskJump s c l => exact (m.unlimited_vector s).bind fun _ => .ok _
  | compareJump c x y l =>
    exact (m.unlimited_baseOf cfg y).bind fun _ => (m.unlimited_base x).bind fun _ => .ok _
  | _ => exact .ok _

/-- A step fails for a trap, an operand or the bounds of memory, never for the step limit. -/
theorem unlimited_step (x : Primitive) : Unlimited (m.step cfg x) :=
  (m.unlimited_effect cfg x).bind fun _ => (m.unlimited_jumpOf cfg x).bind fun _ => .ok _

end Machine

/-! ## What a program passes through -/

/-- A run that was cut off by its step limit. -/
def Run.Limited (r : Run) : Prop :=
  ∃ f, r.outcome = .error f ∧ f.kind? = some .stepLimit

namespace Program

variable {cfg : Config} {p : Program} {m₀ m : Machine} {n pc limit : Nat}

/-- The program comes from `m₀`, after `n` steps, to step `pc` with the machine `m`. -/
inductive Passes (cfg : Config) (p : Program) (m₀ : Machine) : Nat → Nat → Machine → Prop where
  | start : Passes cfg p m₀ 0 0 m₀
  | next {n pc : Nat} {x : Primitive} {m m' : Machine} (before : Passes cfg p m₀ n pc m)
    (here : p.steps[pc]? = some x) (took : m.step cfg x = .ok (m', none)) :
    Passes cfg p m₀ (n + 1) (pc + 1) m'
  | jump {n pc place : Nat} {x : Primitive} {l : Label} {m m' : Machine}
    (before : Passes cfg p m₀ n pc m) (here : p.steps[pc]? = some x)
    (took : m.step cfg x = .ok (m', some l)) (found : p.labels.lookup (some l) = some place) :
    Passes cfg p m₀ (n + 1) place m'

/-- The run that the program makes from `m₀` when it comes to an end of its own: behind its last
step, at a step that fails, or at a jump to a label that was never bound. The step it ends at
counts. -/
inductive Ends (cfg : Config) (p : Program) (m₀ : Machine) : Run → Prop where
  | done {n pc : Nat} {m : Machine} (passed : Passes cfg p m₀ n pc m)
    (past : p.steps[pc]? = none) : Ends cfg p m₀ ⟨.ok (), m, n⟩
  | failed {n pc : Nat} {x : Primitive} {m : Machine} {f : Fault} (passed : Passes cfg p m₀ n pc m)
    (here : p.steps[pc]? = some x) (fails : m.step cfg x = .error f) :
    Ends cfg p m₀ ⟨.error (f.within (.step pc x.stepName)), m, n + 1⟩
  | unbound {n pc : Nat} {x : Primitive} {l : Label} {m m' : Machine}
    (passed : Passes cfg p m₀ n pc m) (here : p.steps[pc]? = some x)
    (took : m.step cfg x = .ok (m', some l)) (missing : p.labels.lookup (some l) = none) :
    Ends cfg p m₀ ⟨Fault.fail (.neverBound l.name), m', n + 1⟩

/-- After a number of steps there is one place and one machine. -/
theorem Passes.unique {pc' : Nat} {m' : Machine} (passed : p.Passes cfg m₀ n pc m)
    (again : p.Passes cfg m₀ n pc' m') : pc' = pc ∧ m' = m := by
  induction passed generalizing pc' m' with
  | start =>
    cases again
    exact ⟨rfl, rfl⟩
  | next _ here took ih =>
    cases again with
    | next before' here' took' =>
      obtain ⟨rfl, rfl⟩ := ih before'
      grind
    | jump before' here' took' found' =>
      obtain ⟨rfl, rfl⟩ := ih before'
      grind
  | jump _ here took found ih =>
    cases again with
    | next before' here' took' =>
      obtain ⟨rfl, rfl⟩ := ih before'
      grind
    | jump before' here' took' found' =>
      obtain ⟨rfl, rfl⟩ := ih before'
      grind

/-- A program that took a step took one of its own. -/
theorem Passes.previous (passed : p.Passes cfg m₀ (n + 1) pc m) :
    ∃ pc m x, p.Passes cfg m₀ n pc m ∧ p.steps[pc]? = some x := by
  cases passed with
  | next before here _ => exact ⟨_, _, _, before, here⟩
  | jump before here _ _ => exact ⟨_, _, _, before, here⟩

/-- On the way to a step of the program there are only steps of the program. -/
theorem Passes.earlier {x : Primitive} (passed : p.Passes cfg m₀ n pc m)
    (here : p.steps[pc]? = some x) {k : Nat} (upTo : k ≤ n) :
    ∃ pc m, p.Passes cfg m₀ k pc m ∧ pc < p.steps.size := by
  induction n generalizing pc m x with
  | zero =>
    obtain rfl := Nat.le_zero.mp upTo
    exact ⟨pc, m, passed, (Array.getElem?_eq_some_iff.mp here).1⟩
  | succ n ih =>
    rcases Nat.le_succ_iff.mp upTo with less | rfl
    · obtain ⟨_, _, _, before, there⟩ := passed.previous
      exact ih before there less
    · exact ⟨pc, m, passed, (Array.getElem?_eq_some_iff.mp here).1⟩

theorem Ends.earlier {r : Run} (ends : p.Ends cfg m₀ r) {k : Nat} (before : k < r.steps) :
    ∃ pc m, p.Passes cfg m₀ k pc m ∧ pc < p.steps.size := by
  cases ends with
  | @done n pc m passed past =>
    cases n with
    | zero => exact absurd before (Nat.not_lt_zero k)
    | succ n =>
      obtain ⟨_, _, _, previous, there⟩ := passed.previous
      exact previous.earlier there (Nat.le_of_lt_succ before)
  | failed passed here fails => exact passed.earlier here (Nat.le_of_lt_succ before)
  | unbound passed here took missing => exact passed.earlier here (Nat.le_of_lt_succ before)

theorem Ends.not_limited {r : Run} (ends : p.Ends cfg m₀ r) : ¬ r.Limited := by
  rintro ⟨f, outcome, kind⟩
  cases ends with
  | done => cases outcome
  | failed _ _ fails =>
    cases outcome
    rw [Fault.kind?_within] at kind
    exact Machine.unlimited_step _ _ _ _ fails kind
  | unbound =>
    cases outcome
    cases kind

/-! ## Runs with a limit -/

/-- A run passes through what the program passes through, as far as its limit goes: what is left of
it starts there, with the steps that are left. -/
theorem Passes.run (passed : p.Passes cfg m₀ n pc m) (within : n ≤ limit) :
    p.run cfg limit m₀ = p.runFrom cfg limit (limit - n) pc m := by
  induction passed with
  | start => rfl
  | @next n pc x m m' _ here took ih =>
    have left : limit - n = limit - (n + 1) + 1 := by omega
    rw [ih (by omega), left, runFrom_step here took]
    rfl
  | @jump n pc place x l m m' _ here took found ih =>
    have left : limit - n = limit - (n + 1) + 1 := by omega
    rw [ih (by omega), left, runFrom_step here took]
    simp only [resume, found]

/-- Before its steps are used up, a run is about to take one more. -/
theorem Passes.run_succ (passed : p.Passes cfg m₀ n pc m) (within : n + 1 ≤ limit) :
    p.run cfg limit m₀ = p.runFrom cfg limit (limit - (n + 1) + 1) pc m := by
  have left : limit - n = limit - (n + 1) + 1 := by omega
  rw [passed.run (Nat.le_of_succ_le within), left]

/-- With its steps used up, a run stops before the next step. -/
theorem Passes.run_limited {x : Primitive} (passed : p.Passes cfg m₀ n pc m)
    (here : p.steps[pc]? = some x) :
    p.run cfg n m₀ = ⟨Fault.fail (.stepLimit n), m, n⟩ := by
  rw [passed.run (Nat.le_refl n), Nat.sub_self, runFrom, here]

/-- A run that comes to its end within its limit does not depend on the limit. -/
theorem Ends.run {r : Run} (ends : p.Ends cfg m₀ r) (within : r.steps ≤ limit) :
    p.run cfg limit m₀ = r := by
  cases ends with
  | @done n pc m passed past =>
    have used : limit - (limit - n) = n := Nat.sub_sub_self within
    rw [passed.run within, runFrom, past]
    simp only [used]
  | @failed n pc x m f passed here fails =>
    have used : limit - (limit - (n + 1)) = n + 1 := Nat.sub_sub_self within
    rw [passed.run_succ within, runFrom, here]
    simp only [fails, used]
  | @unbound n pc x l m m' passed here took missing =>
    have used : limit - (limit - (n + 1)) = n + 1 := Nat.sub_sub_self within
    rw [passed.run_succ within, runFrom_step here took]
    simp only [resume, missing, used]

/-- A program ends within `n` steps, or it comes to a further step after `n` of them. -/
theorem ends_or_passes (cfg : Config) (p : Program) (m₀ : Machine) (n : Nat) :
    (∃ r, p.Ends cfg m₀ r ∧ r.steps ≤ n) ∨
      ∃ pc x m, p.Passes cfg m₀ n pc m ∧ p.steps[pc]? = some x := by
  have arrives {n pc : Nat} {m : Machine} (passed : p.Passes cfg m₀ n pc m) :
      (∃ r, p.Ends cfg m₀ r ∧ r.steps ≤ n) ∨
        ∃ pc x m, p.Passes cfg m₀ n pc m ∧ p.steps[pc]? = some x := by
    cases here : p.steps[pc]? with
    | none => exact .inl ⟨_, .done passed here, Nat.le_refl n⟩
    | some x => exact .inr ⟨pc, x, m, passed, here⟩
  induction n with
  | zero => exact arrives .start
  | succ n ih =>
    rcases ih with ⟨r, ends, few⟩ | ⟨pc, x, m, passed, here⟩
    · exact .inl ⟨r, ends, Nat.le_succ_of_le few⟩
    · rcases step : m.step cfg x with f | ⟨m', _ | l⟩
      · exact .inl ⟨_, .failed passed here step, Nat.le_refl _⟩
      · exact arrives (.next passed here step)
      · cases found : p.labels.lookup (some l) with
        | some place => exact arrives (.jump passed here step found)
        | none => exact .inl ⟨_, .unbound passed here step found, Nat.le_refl _⟩

/-- A program that comes to a further step has not come to its end. -/
theorem Passes.lt_steps {r : Run} {x : Primitive} (passed : p.Passes cfg m₀ n pc m)
    (here : p.steps[pc]? = some x) (ends : p.Ends cfg m₀ r) : n < r.steps := by
  by_contra late
  have same := (ends.run (Nat.le_of_not_lt late)).symm.trans (passed.run_limited here)
  refine ends.not_limited ⟨.error (.ofCause (.stepLimit n)), ?_, rfl⟩
  rw [same]
  rfl

end Program

/-- A step limit cuts a run off and does nothing else. Take a program, a machine and two limits, one no
larger than the other.

- The run with the smaller limit executes step after step as long as the program has one for it and
  the limit is not reached, and these are the steps it reports.
- If the limit did not cut it off, the run with the larger limit is the same: it has the same outcome,
  the same machine and the same number of steps.
- If the limit cut it off, it has taken as many steps as the limit says and stands before a step of
  the program, with the one machine that the program comes to after so many steps; the run with the
  larger limit goes on from there. -/
theorem limit_truncates (cfg : Config) (p : Program) (m₀ : Machine) {limit limit' : Nat}
    (le : limit ≤ limit') :
    let r := p.run cfg limit m₀
    (r.steps ≤ limit ∧ ∀ k, k < r.steps ↔
      k < limit ∧ ∃ pc m, p.Passes cfg m₀ k pc m ∧ pc < p.steps.size) ∧
    (¬ r.Limited → p.run cfg limit' m₀ = r) ∧
    (r.Limited → r.steps = limit ∧ ∃ pc, pc < p.steps.size ∧
      (∀ pc' m, p.Passes cfg m₀ limit pc' m ↔ pc' = pc ∧ m = r.machine) ∧
      p.run cfg limit' m₀ = p.runFrom cfg limit' (limit' - limit) pc r.machine) := by
  intro r
  rcases p.ends_or_passes cfg m₀ limit with ⟨r', ends, few⟩ | ⟨pc, x, m, passed, here⟩
  · have same : r = r' := ends.run few
    rw [same]
    refine ⟨⟨few, fun k => ⟨?_, ?_⟩⟩, ?_, ?_⟩
    · intro before
      exact ⟨Nat.lt_of_lt_of_le before few, ends.earlier before⟩
    · rintro ⟨-, pc, m, passed, inside⟩
      exact passed.lt_steps (Array.getElem?_eq_getElem inside) ends
    · intro _
      exact ends.run (Nat.le_trans few le)
    · intro limited
      exact absurd limited ends.not_limited
  · have same : r = ⟨Fault.fail (.stepLimit limit), m, limit⟩ := passed.run_limited here
    have cut : r.Limited := by
      rw [same]
      exact ⟨_, rfl, rfl⟩
    have inside : pc < p.steps.size := (Array.getElem?_eq_some_iff.mp here).1
    rw [same] at cut ⊢
    refine ⟨⟨Nat.le_refl limit, fun k => ⟨?_, And.left⟩⟩, ?_, ?_⟩
    · intro before
      exact ⟨before, passed.earlier here (Nat.le_of_lt before)⟩
    · intro other
      exact absurd cut other
    · intro _
      refine ⟨rfl, pc, inside, fun pc' m' => ⟨fun again => passed.unique again, ?_⟩, passed.run le⟩
      rintro ⟨rfl, rfl⟩
      exact passed

/-- A loop that counts is cut off after five steps, when it has counted to three and is about to jump;
with nine steps it goes on from there. A jump to a label that was never bound is the end of a run in its
first step, with a limit of one step as with nine. -/
theorem limit_truncates_loop :
    let cfg := Config.mips .mips64 "128" 1 64 64
    let top : Label := ⟨.ofString "top", 0⟩
    let loop : Program :=
      ⟨#[.arithBase .add (.base 2) (.imm ⟨1, .ib⟩), .jump (some top)], [(some top, 0)], #[some top], 1⟩
    let stray : Program := ⟨#[.jump (some top)], [], #[some top], 1⟩
    let m := Machine.init cfg #[]
    let r := loop.run cfg 5 m
    (r.Limited ∧ r.steps = 5 ∧ (r.machine.base (.base 2)).toOption = some 3 ∧
      loop.Passes cfg m 5 1 r.machine ∧ loop.run cfg 9 m = loop.runFrom cfg 9 4 1 r.machine) ∧
    ¬ (stray.run cfg 1 m).Limited ∧ stray.run cfg 9 m = stray.run cfg 1 m := by
  intro cfg top loop stray m r
  have cut : r.Limited := ⟨.error (.ofCause (.stepLimit 5)), rfl, rfl⟩
  have ended : ¬ (stray.run cfg 1 m).Limited := by
    rintro ⟨f, outcome, kind⟩
    obtain rfl : .error (.ofCause (.neverBound top.name)) = f := Except.error.inj outcome
    cases kind
  obtain ⟨steps, pc, -, passes, rest⟩ :=
    (limit_truncates cfg loop m (show 5 ≤ 9 by decide)).2.2 cut
  have path : ∃ m', loop.Passes cfg m 5 1 m' :=
    ⟨_, .next (.jump (.next (.jump (.next .start rfl rfl) rfl rfl rfl) rfl rfl) rfl rfl rfl) rfl rfl⟩
  have counted : (r.machine.base (.base 2)).toOption = some 3 := by decide +kernel
  obtain ⟨m', path⟩ := path
  obtain ⟨rfl, rfl⟩ := (passes 1 m').mp path
  exact ⟨⟨cut, steps, counted, path, rest⟩, ended,
    (limit_truncates cfg stray m (show 1 ≤ 9 by decide)).2.1 ended⟩

end LaneAsm
