import LaneAsm.Machine.Run
import LaneAsm.Proofs.Machine

/-!
Runs block by block. A program whose steps are blocks laid end to end, with its labels at the starts
of blocks, runs to its end exactly when it halts block by block (`Halts`). The block view forgets
step numbers and limits, so that two programs with blocks of different lengths can be compared.
-/
namespace LaneAsm

namespace Machine

/-- Steps taken one after the other, up to the first jump. -/
def steps (cfg : Config) : List Primitive → Machine → Except Fault (Machine × LabelRef)
  | [], m => .ok (m, none)
  | p :: ps, m =>
    match m.step cfg p with
    | .ok (m, none) => steps cfg ps m
    | .ok (m, some l) => .ok (m, some l)
    | .error f => .error f

theorem step_eq_ok {cfg : Config} {p : Primitive} {m m' : Machine} {j : LabelRef} :
    m.step cfg p = .ok (m', j) ↔ m.effect cfg p = .ok m' ∧ m.jumpOf cfg p = .ok j := by
  unfold step
  constructor
  · intro done
    obtain ⟨_, changed, done⟩ := bind_eq_ok.mp done
    obtain ⟨_, jumped, done⟩ := bind_eq_ok.mp done
    cases done
    exact ⟨changed, jumped⟩
  · rintro ⟨changed, jumped⟩
    exact bind_eq_ok.mpr ⟨m', changed, bind_eq_ok.mpr ⟨j, jumped, rfl⟩⟩

theorem steps_single {cfg : Config} {p : Primitive} {m m' : Machine} {j : LabelRef} :
    m.steps cfg [p] = .ok (m', j) ↔ m.effect cfg p = .ok m' ∧ m.jumpOf cfg p = .ok j := by
  rw [← step_eq_ok, steps]
  cases done : m.step cfg p with
  | error f => simp
  | ok out =>
    obtain ⟨m₁, k⟩ := out
    cases k <;> simp [steps]

theorem steps_append {cfg : Config} {ps qs : List Primitive} {m m₁ : Machine}
    (first : m.steps cfg ps = .ok (m₁, none)) : m.steps cfg (ps ++ qs) = m₁.steps cfg qs := by
  induction ps generalizing m with
  | nil =>
    cases first
    rfl
  | cons p ps ih =>
    rw [List.cons_append]
    rw [steps] at first ⊢
    split at first
    · exact ih first
    · cases first
    · cases first

theorem steps_of_append {cfg : Config} {ps qs : List Primitive} {m : Machine}
    {out : Machine × LabelRef} (run : m.steps cfg (ps ++ qs) = .ok out) :
    ∃ m₁ j, m.steps cfg ps = .ok (m₁, j) ∧ (j = none → m₁.steps cfg qs = .ok out) := by
  induction ps generalizing m with
  | nil => exact ⟨m, none, rfl, fun _ => run⟩
  | cons p ps ih =>
    rw [List.cons_append] at run
    rw [steps] at run ⊢
    split at run
    · exact ih run
    · exact ⟨_, _, rfl, nofun⟩
    · cases run

end Machine

/-- A program of blocks halts: from block `k` on, every block runs, jumps lead to the blocks of
their labels, and in the end there is no block left. -/
inductive Halts (cfg : Config) (blocks : List (List Primitive)) (target : Label → Option Nat) :
    Nat → Machine → Machine → Prop where
  | done {k : Nat} {m : Machine} (past : blocks[k]? = none) : Halts cfg blocks target k m m
  | next {k : Nat} {ps : List Primitive} {m m₁ m' : Machine} (block : blocks[k]? = some ps)
    (run : m.steps cfg ps = .ok (m₁, none)) (rest : Halts cfg blocks target (k + 1) m₁ m') :
    Halts cfg blocks target k m m'
  | jump {k n : Nat} {ps : List Primitive} {l : Label} {m m₁ m' : Machine}
    (block : blocks[k]? = some ps) (run : m.steps cfg ps = .ok (m₁, some l))
    (found : target l = some n) (rest : Halts cfg blocks target n m₁ m') :
    Halts cfg blocks target k m m'

/-- Where each block of one program is matched by one of another, keeping a relation between the
machines, the second program halts if the first one does. -/
theorem Halts.simulate {α : Type} {cfg cfg' : Config} {f g : α → List Primitive} {is : List α}
    {target : Label → Option Nat} {R : Machine → Machine → Prop}
    (step : ∀ i ∈ is, ∀ m n m₁ j, R m n → m.steps cfg (f i) = .ok (m₁, j) →
      ∃ n₁, n.steps cfg' (g i) = .ok (n₁, j) ∧ R m₁ n₁)
    {k : Nat} {m m' : Machine} (halts : Halts cfg (is.map f) target k m m') {n : Machine}
    (related : R m n) : ∃ n', Halts cfg' (is.map g) target k n n' ∧ R m' n' := by
  have matching {k : Nat} {ps : List Primitive} (block : (is.map f)[k]? = some ps) :
      ∃ i ∈ is, f i = ps ∧ (is.map g)[k]? = some (g i) := by
    rw [List.getElem?_map, Option.map_eq_some_iff] at block
    obtain ⟨i, here, rfl⟩ := block
    exact ⟨i, List.mem_of_getElem? here, rfl, by simp [here]⟩
  induction halts generalizing n with
  | done past => exact ⟨n, .done (by simpa using past), related⟩
  | next block run _ ih =>
    obtain ⟨i, member, rfl, image⟩ := matching block
    obtain ⟨n₁, run, related⟩ := step i member _ _ _ _ related run
    obtain ⟨n', rest, related⟩ := ih related
    exact ⟨n', .next image run rest, related⟩
  | jump block run found _ ih =>
    obtain ⟨i, member, rfl, image⟩ := matching block
    obtain ⟨n₁, run, related⟩ := step i member _ _ _ _ related run
    obtain ⟨n', rest, related⟩ := ih related
    exact ⟨n', .jump image run found rest, related⟩

/-- The number of the first step of block `k`. -/
def offset (blocks : List (List Primitive)) (k : Nat) : Nat := (blocks.take k).flatten.length

/-- A program is made of blocks, and its labels are bound to the starts of blocks. -/
structure Program.LaidOut (p : Program) (blocks : List (List Primitive))
    (target : Label → Option Nat) : Prop where
  steps : p.steps.toList = blocks.flatten
  labels : ∀ l, p.labels.lookup (some l) = (target l).map (offset blocks)

theorem offset_succ {blocks : List (List Primitive)} {k : Nat} {ps : List Primitive}
    (block : blocks[k]? = some ps) : offset blocks (k + 1) = offset blocks k + ps.length := by
  simp [offset, List.take_add_one, block]

theorem drop_offset {blocks : List (List Primitive)} {k : Nat} {ps : List Primitive}
    (block : blocks[k]? = some ps) :
    blocks.flatten.drop (offset blocks k) = ps ++ (blocks.drop (k + 1)).flatten := by
  obtain ⟨inside, here⟩ := List.getElem?_eq_some_iff.mp block
  have split : blocks.flatten = (blocks.take k).flatten ++ (blocks.drop k).flatten := by
    rw [← List.flatten_append, List.take_append_drop]
  rw [split, offset, List.drop_left, List.drop_eq_getElem_cons inside, List.flatten_cons, here]

namespace Program

variable {cfg : Config} {p : Program}

/-- What is left of a run after a step: it goes on at `pc`, or at the label jumped to. -/
def resume (cfg : Config) (p : Program) (limit fuel pc : Nat) (j : LabelRef) (m : Machine) : Run :=
  match j with
  | none => p.runFrom cfg limit fuel pc m
  | some l =>
    match p.labels.lookup (some l) with
    | some next => p.runFrom cfg limit fuel next m
    | none => ⟨Fault.fail (.neverBound l.name), m, limit - fuel⟩

theorem runFrom_step {limit fuel pc : Nat} {x : Primitive} {m m₁ : Machine} {j : LabelRef}
    (here : p.steps[pc]? = some x) (step : m.step cfg x = .ok (m₁, j)) :
    p.runFrom cfg limit (fuel + 1) pc m = p.resume cfg limit fuel (pc + 1) j m₁ := by
  rw [runFrom, here]
  cases j with
  | none => simp only [step, resume]
  | some l =>
    simp only [step]
    rfl

private theorem head_of_drop {pc : Nat} {x : Primitive} {ps : List Primitive}
    (code : p.steps.toList.drop pc = x :: ps) :
    p.steps[pc]? = some x ∧ p.steps.toList.drop (pc + 1) = ps := by
  constructor
  · rw [← Array.getElem?_toList, ← List.head?_drop, code]
    rfl
  · rw [← List.tail_drop, code]
    rfl

/-- Steps that succeed are gone through by a run with enough fuel. -/
theorem runFrom_steps {ps qs : List Primitive} {pc : Nat} {m m₁ : Machine} {j : LabelRef}
    (code : p.steps.toList.drop pc = ps ++ qs) (run : m.steps cfg ps = .ok (m₁, j)) :
    ∃ used ≤ ps.length, ∀ limit fuel, p.runFrom cfg limit (fuel + used) pc m =
      p.resume cfg limit fuel (pc + ps.length) j m₁ := by
  induction ps generalizing pc m with
  | nil =>
    cases run
    exact ⟨0, Nat.le_refl 0, fun _ _ => rfl⟩
  | cons x ps ih =>
    obtain ⟨here, further⟩ := head_of_drop code
    rw [Machine.steps] at run
    split at run
    · rename_i m₂ step
      obtain ⟨used, few, rest⟩ := ih further run
      refine ⟨used + 1, Nat.succ_le_succ few, fun limit fuel => ?_⟩
      rw [← Nat.add_assoc, runFrom_step here step, resume, rest, List.length_cons, Nat.add_assoc,
        Nat.add_comm 1]
    · rename_i l step
      cases run
      refine ⟨1, Nat.succ_le_succ (Nat.zero_le _), fun limit fuel => ?_⟩
      rw [runFrom_step here step]
      rfl
    · cases run

/-- A run that ends well goes through the steps ahead of it, and what is left of it ends in the same
way. -/
theorem steps_of_runFrom {limit fuel pc : Nat} {ps qs : List Primitive} {m : Machine}
    (code : p.steps.toList.drop pc = ps ++ qs)
    (ok : (p.runFrom cfg limit fuel pc m).outcome = .ok ()) :
    ∃ m₁ j left, m.steps cfg ps = .ok (m₁, j) ∧ left ≤ fuel ∧ (ps ≠ [] → left < fuel) ∧
      p.runFrom cfg limit fuel pc m = p.resume cfg limit left (pc + ps.length) j m₁ := by
  induction ps generalizing fuel pc m with
  | nil => exact ⟨m, none, fuel, rfl, Nat.le_refl fuel, by simp, rfl⟩
  | cons x ps ih =>
    obtain ⟨here, further⟩ := head_of_drop code
    cases fuel with
    | zero =>
      rw [runFrom, here] at ok
      cases ok
    | succ fuel =>
      cases step : m.step cfg x with
      | error f =>
        rw [runFrom, here] at ok
        simp [step] at ok
      | ok next =>
        obtain ⟨m₂, j⟩ := next
        rw [runFrom_step here step] at ok ⊢
        cases j with
        | none =>
          obtain ⟨m₁, j, left, run, few, _, same⟩ := ih further ok
          refine ⟨m₁, j, left, ?_, by omega, fun _ => by omega, ?_⟩
          · rw [Machine.steps, step]
            exact run
          · rw [resume, same, List.length_cons, Nat.add_assoc, Nat.add_comm 1]
        | some l =>
          refine ⟨m₂, some l, fuel, ?_, by omega, fun _ => by omega, rfl⟩
          rw [Machine.steps, step]

/-! ## Halting -/

variable {blocks : List (List Primitive)} {target : Label → Option Nat}

theorem LaidOut.finished (layout : p.LaidOut blocks target) {k : Nat} (past : blocks[k]? = none)
    (limit fuel : Nat) (m : Machine) :
    p.runFrom cfg limit fuel (offset blocks k) m = ⟨.ok (), m, limit - fuel⟩ := by
  have all : blocks.take k = blocks := List.take_of_length_le (by simpa using past)
  have last : p.steps[offset blocks k]? = none := by
    rw [← Array.getElem?_toList, layout.steps, offset, all]
    simp
  rw [runFrom, last]

/-- A run that has its steps to spend ends well on a machine. -/
def EndsWell (cfg : Config) (p : Program) (pc : Nat) (m m' : Machine) (enough : Nat) : Prop :=
  ∀ limit fuel, enough ≤ fuel → (p.runFrom cfg limit fuel pc m).outcome = .ok () ∧
    (p.runFrom cfg limit fuel pc m).machine = m'

/-- Before a block the run ends as it does after it; the block uses up at most its length. -/
theorem LaidOut.endsWell_block (layout : p.LaidOut blocks target) {k pc : Nat}
    {ps : List Primitive} {m m₁ m' : Machine} {j : LabelRef} (block : blocks[k]? = some ps)
    (run : m.steps cfg ps = .ok (m₁, j))
    (next : ∀ limit fuel, p.resume cfg limit fuel (offset blocks (k + 1)) j m₁ =
      p.runFrom cfg limit fuel pc m₁)
    {enough : Nat} (rest : EndsWell cfg p pc m₁ m' enough) :
    EndsWell cfg p (offset blocks k) m m' (enough + ps.length) := by
  intro limit fuel large
  obtain ⟨used, few, through⟩ := runFrom_steps (layout.steps ▸ drop_offset block) run
  have spent : fuel - used + used = fuel := by omega
  rw [← spent, through, ← offset_succ block, next]
  exact rest limit (fuel - used) (by omega)

/-- A program that halts block by block runs to its end on every large enough limit. -/
theorem LaidOut.endsWell_of_halts (layout : p.LaidOut blocks target) {k : Nat} {m m' : Machine}
    (halts : Halts cfg blocks target k m m') :
    ∃ enough, EndsWell cfg p (offset blocks k) m m' enough := by
  induction halts with
  | done past =>
    refine ⟨0, fun limit fuel _ => ?_⟩
    rw [layout.finished past]
    exact ⟨rfl, rfl⟩
  | next block run _ ih =>
    obtain ⟨enough, rest⟩ := ih
    exact ⟨_, layout.endsWell_block block run (fun _ _ => rfl) rest⟩
  | @jump k n ps l m m₁ m' block run found _ ih =>
    obtain ⟨enough, rest⟩ := ih
    refine ⟨_, layout.endsWell_block block run (fun limit fuel => ?_) rest⟩
    rw [resume, layout.labels, found]
    rfl

/-- A program that runs to its end halts block by block. The run has less fuel after a block with
steps in it, and fewer blocks ahead of it after one without. -/
theorem LaidOut.halts_of_run (layout : p.LaidOut blocks target) {limit fuel k : Nat} {m : Machine}
    (ok : (p.runFrom cfg limit fuel (offset blocks k) m).outcome = .ok ()) :
    Halts cfg blocks target k m (p.runFrom cfg limit fuel (offset blocks k) m).machine := by
  cases block : blocks[k]? with
  | none =>
    rw [layout.finished block]
    exact .done block
  | some ps =>
    obtain ⟨m₁, j, left, run, few, less, same⟩ :=
      steps_of_runFrom (layout.steps ▸ drop_offset block) ok
    have inside : k < blocks.length := (List.getElem?_eq_some_iff.mp block).1
    rw [same, ← offset_succ block] at ok ⊢
    cases j with
    | none => exact .next block run (layout.halts_of_run ok)
    | some l =>
      have stepped : ps ≠ [] := by
        rintro rfl
        cases run
      have fewer := less stepped
      rw [resume, layout.labels] at ok ⊢
      cases found : target l with
      | none =>
        rw [found] at ok
        cases ok
      | some n =>
        rw [found] at ok
        exact .jump block run found (layout.halts_of_run ok)
termination_by (fuel, blocks.length - k)
decreasing_by
  · rcases Nat.lt_or_eq_of_le few with fewer | rfl
    · exact .left _ _ fewer
    · exact .right _ (by omega)
  · exact .left _ _ fewer

end Program

end LaneAsm
