import LaneAsm.Catalog.BuiltIn
import LaneAsm.Machine.Program
import LaneAsm.Proofs.LaneValue
import LaneAsm.Proofs.Machine
import LaneAsm.Proofs.Routes

/-!
Derived comparators are right. An `Executor` runs primitives on states it keeps to itself, and it is
faithful to a capability when its moves, complements, minima, maxima and native comparators write
the value the lanes say and nothing else. On such an executor the primitives of every route leave the
comparison in the destination, whichever of the registers coincide.
-/
namespace LaneAsm

/-! ## Comparators of vectors -/

namespace Lanes

open Bytes

theorem paired_of_isCompare {c : Op} (compare : c.isCompare = true) : paired c = true := by
  cases c <;> simp_all [Op.isCompare, paired]

private theorem zipWith_with_left {f g : UInt64 → UInt64 → UInt64} (xs ys : List UInt64) :
    List.zipWith f (List.zipWith g xs ys) xs = List.zipWith (fun x y => f (g x y) x) xs ys := by
  induction xs generalizing ys <;> cases ys <;> simp_all

private theorem zipWith_with_right {f g : UInt64 → UInt64 → UInt64} (xs ys : List UInt64) :
    List.zipWith f (List.zipWith g xs ys) ys = List.zipWith (fun x y => f (g x y) y) xs ys := by
  induction xs generalizing ys <;> cases ys <;> simp_all

section
variable {e : Elem} (valid : e.valid = true) {a b : Bytes} (whole : e.bytes ∣ a.size)
  (same : a.size = b.size)
include valid whole same

/-- A paired operation on vectors of one length has a result of that length. -/
theorem eval?_total {op : Op} (lanewise : paired op = true) :
    ∃ r, eval? op e a b = some r ∧ r.size = a.size := by
  refine ⟨_, eval?_paired lanewise valid whole same, ?_⟩
  rw [size_ofLanes, List.length_zipWith, length_lanes, length_lanes, ← same, Nat.min_self,
    Elem.width_of_valid valid, Nat.div_mul_cancel whole]

theorem eval?_swapped {c : Op} (compare : c.isCompare = true) :
    eval? c.swapped e b a = eval? c e a b := by
  have swapped : c.swapped.isCompare = true := (Op.isCompare_swapped c).trans compare
  rw [eval?_paired (paired_of_isCompare swapped) valid (same ▸ whole) same.symm,
    eval?_paired (paired_of_isCompare compare) valid whole same, List.zipWith_comm]
  simp only [Lane.eval_swapped compare valid]

/-- Where one operation is the complement of another lane by lane, it is on vectors. -/
theorem eval?_complement {c k : Op} (compare : c.isCompare = true) (other : k.isCompare = true)
    (lanewise : ∀ x y, ~~~Lane.eval k e x y &&& e.mask = Lane.eval c e x y &&& e.mask) :
    eval? c e a b = (eval? k e a b).map (·.map (~~~·)) := by
  rw [eval?_paired (paired_of_isCompare compare) valid whole same,
    eval?_paired (paired_of_isCompare other) valid whole same, Option.map_some,
    complement_ofLanes valid]
  congr 1
  apply ofLanes_congr valid
  simp only [List.map_zipWith, lanewise]

/-- Whether a result equals one of the vectors it was made from, lane by lane. -/
theorem eval?_equal_eval? {op : Op} (lanewise : paired op = true) (integer : e.isFloat = false)
    (first : Bool) {r : Bytes} (made : eval? op e a b = some r) :
    eval? .ceq e r (if first then a else b) = some (ofLanes e (List.zipWith (fun x y =>
      Lane.eval .ceq e (Lane.eval op e x y) (if first then x else y))
      (a.lanes e) (b.lanes e))) := by
  obtain ⟨_, again, size⟩ := eval?_total valid whole same lanewise
  obtain rfl := Option.some.inj (made.symm.trans again)
  have against : r.size = (if first then a else b).size := by cases first <;> simp [size, same]
  have value : ofLanes e (List.zipWith (Lane.eval op e) (a.lanes e) (b.lanes e)) = r :=
    Option.some.inj ((eval?_paired lanewise valid whole same).symm.trans made)
  have lanes : r.lanes e = (List.zipWith (Lane.eval op e) (a.lanes e) (b.lanes e)).map
      (· &&& e.mask) := by rw [← value, lanes_ofLanes valid]
  have merged : List.zipWith (Lane.eval .ceq e) (r.lanes e) ((if first then a else b).lanes e) =
      List.zipWith (fun x y => Lane.eval .ceq e (Lane.eval op e x y) (if first then x else y))
        (a.lanes e) (b.lanes e) := by
    rw [lanes]
    cases first with
    | true => simp [zipWith_with_left, Lane.eval_equal_and_mask valid integer]
    | false => simp [zipWith_with_right, Lane.eval_equal_and_mask valid integer]
  rw [eval?_paired rfl valid (size ▸ whole) against, merged]

theorem eval?_below {c : Op} (strict : c = .clt ∨ c = .cgt) (integer : e.isFloat = false) :
    ∃ m r, eval? .max e a b = some m ∧ eval? .ceq e m (if c = .clt then a else b) = some r ∧
      eval? c e a b = some (r.map (~~~·)) := by
  obtain ⟨m, made, _⟩ := eval?_total valid whole same (show paired .max = true from rfl)
  have equal := eval?_equal_eval? valid whole same rfl integer (c = .clt) made
  simp only [decide_eq_true_eq] at equal
  refine ⟨m, _, made, equal, ?_⟩
  have compare : c.isCompare = true := by rcases strict with rfl | rfl <;> rfl
  rw [eval?_paired (paired_of_isCompare compare) valid whole same, complement_ofLanes valid]
  congr 1
  apply ofLanes_congr valid
  simp only [List.map_zipWith, Lane.eval_below valid integer strict]

theorem eval?_atMost {c : Op} (loose : c = .cle ∨ c = .cge) (integer : e.isFloat = false) :
    ∃ m, eval? .min e a b = some m ∧
      eval? .ceq e m (if c = .cle then a else b) = eval? c e a b := by
  obtain ⟨m, made, _⟩ := eval?_total valid whole same (show paired .min = true from rfl)
  have equal := eval?_equal_eval? valid whole same rfl integer (c = .cle) made
  simp only [decide_eq_true_eq] at equal
  have compare : c.isCompare = true := by rcases loose with rfl | rfl <;> rfl
  refine ⟨m, made, equal.trans ?_⟩
  rw [eval?_paired (paired_of_isCompare compare) valid whole same]
  simp only [Lane.eval_atMost valid integer loose]

end

end Lanes

/-! ## Executors -/

/-- Something that runs primitives. Its states hold vector registers, known by their numbers, and
whatever else there is. -/
structure Executor (σ ρ : Type) where
  vector : σ → Int → Option Bytes
  /-- Everything but the vector registers: the memory and the base registers. -/
  rest : σ → ρ
  load : σ → Mem → Option Bytes
  exec : Primitive → σ → Option σ

namespace Executor

variable {σ ρ : Type}

/-- The value of a source: a vector register, or memory that can be read. -/
def source (x : Executor σ ρ) (s : σ) : Operand → Option Bytes
  | .reg r => if r.kind = .vector then x.vector s r.index else none
  | .mem m => x.load s m
  | .imm _ => none

/-- Runs primitives one after the other. -/
def run (x : Executor σ ρ) : List Primitive → σ → Option σ
  | [], s => some s
  | p :: ps, s => (x.exec p s).bind (x.run ps)

/-- One register is written and nothing else changes. -/
structure Writes (x : Executor σ ρ) (s s' : σ) (d : Int) (v : Bytes) : Prop where
  here : x.vector s' d = some v
  others : ∀ i, i ≠ d → x.vector s' i = x.vector s i
  rest : x.rest s' = x.rest s

/-- A primitive writes a result to a register wherever the result and the register exist. -/
def Realises (x : Executor σ ρ) (p : Primitive) (d : Int) (result : σ → Option Bytes) : Prop :=
  ∀ s v, (x.vector s d).isSome → result s = some v → ∃ s', x.exec p s = some s' ∧ x.Writes s s' d v

/-- The value of an operation on a register and a source. -/
def binary (x : Executor σ ρ) (op : Op) (e : Elem) (a : Int) (y : Operand) (s : σ) : Option Bytes :=
  (x.vector s a).bind fun u => (x.source s y).bind fun v => Lanes.eval? op e u v

/-- The primitives that comparators are derived from do what the lanes say: moves and complements
always, minima and maxima where they are supported, comparators where they are native. -/
structure Faithful (x : Executor σ ρ) (cap : Capability) : Prop where
  loads : ∀ s s', x.rest s' = x.rest s → x.load s' = x.load s
  move : ∀ d y, x.Realises (.move (.reg (.xmm d)) y) d (x.source · y)
  not : ∀ d a, x.Realises (.not (.xmm d) (.xmm a)) d
    fun s => (x.vector s a).bind (Lanes.eval? .not .u8 · #[])
  extreme : ∀ op e d a y, op = .min ∨ op = .max → cap.supports op e ≠ .unsupported →
    x.Realises (.arith op e (.xmm d) (.xmm a) y) d (x.binary op e a y)
  compare : ∀ c e d a y, cap.nativeCompare c e = true →
    x.Realises (.compare c e (.xmm d) (.xmm a) y) d (x.binary c e a y)

/-- Primitives run and leave a value in one register; besides it at most the temporary changes. -/
structure Leaves (x : Executor σ ρ) (ps : List Primitive) (s s' : σ) (d t : Int) (v : Bytes) :
    Prop where
  runs : x.run ps s = some s'
  here : x.vector s' d = some v
  others : ∀ i, i ≠ d → i ≠ t → x.vector s' i = x.vector s i
  rest : x.rest s' = x.rest s

section
variable {x : Executor σ ρ}

theorem run_append (ps qs : List Primitive) (s : σ) :
    x.run (ps ++ qs) s = (x.run ps s).bind (x.run qs) := by
  induction ps generalizing s with
  | nil => rfl
  | cons p ps ih =>
    rw [List.cons_append, run, run]
    cases x.exec p s with
    | none => rfl
    | some s => exact ih s

theorem Writes.leaves {s s' : σ} {d t : Int} {v : Bytes} {p : Primitive}
    (written : x.Writes s s' d v) (step : x.exec p s = some s') : x.Leaves [p] s s' d t v := by
  refine ⟨?_, written.here, fun i other _ => written.others i other, written.rest⟩
  rw [run, step]
  rfl

/-- Work that follows a write to the destination or to the temporary. -/
theorem Leaves.after {s s₁ s₂ : σ} {d t k : Int} {p : Primitive} {ps : List Primitive} {v w : Bytes}
    (step : x.exec p s = some s₁) (written : x.Writes s s₁ k w) (place : k = d ∨ k = t)
    (rest : x.Leaves ps s₁ s₂ d t v) : x.Leaves (p :: ps) s s₂ d t v := by
  refine ⟨?_, rest.here, ?_, rest.rest.trans written.rest⟩
  · rw [run, step]
    exact rest.runs
  · intro i other free
    have apart : i ≠ k := by rcases place with rfl | rfl <;> assumption
    rw [rest.others i other free, written.others i apart]

variable {cap : Capability} (faithful : x.Faithful cap)
include faithful

/-- A complement in place turns every bit of what was left. -/
theorem Leaves.complement {s s' : σ} {d t : Int} {ps : List Primitive} {v : Bytes}
    (done : x.Leaves ps s s' d t v) :
    ∃ s', x.Leaves (ps ++ [.not (.xmm d) (.xmm d)]) s s' d t (v.map (~~~·)) := by
  obtain ⟨s₂, step, written⟩ := faithful.not d d s' (v.map (~~~·)) (by simp [done.here])
    (by simp [done.here, Lanes.eval?])
  refine ⟨s₂, ?_, written.here, ?_, written.rest.trans done.rest⟩
  · rw [run_append, done.runs, Option.bind_some, run, step]
    rfl
  · intro i other free
    rw [written.others i other, done.others i other free]

/-- A source other than the register written keeps its value. -/
theorem source_of_writes {s s' : σ} {t : Int} {w : Bytes} {y : Operand}
    (written : x.Writes s s' t w) (apart : y ≠ .reg (.xmm t)) : x.source s' y = x.source s y := by
  cases y with
  | reg r =>
    by_cases vector : r.kind = .vector
    · have other : r.index ≠ t := by
        intro same
        apply apart
        cases r
        simp_all [Reg.xmm]
      simp [source, vector, written.others _ other]
    · simp [source, vector]
  | mem m => simp only [source, faithful.loads _ _ written.rest]
  | imm i => rfl

end

/-- The operands of a comparison: a destination, a register and a source with their values, and a
temporary apart from all three. Destination and sources may coincide. -/
structure Placed (x : Executor σ ρ) (s : σ) (d a : Int) (y : Operand) (t : Int) (u v : Bytes) :
    Prop where
  destination : (x.vector s d).isSome
  temporary : (x.vector s t).isSome
  left : x.vector s a = some u
  right : x.source s y = some v
  apartDestination : t ≠ d
  apartLeft : t ≠ a
  apartRight : y ≠ .reg (.xmm t)

section
variable {x : Executor σ ρ} {cap : Capability} (faithful : x.Faithful cap) {s : σ} {d a t : Int}
  {y : Operand} {u v : Bytes} (placed : x.Placed s d a y t u v)
include faithful placed

theorem leaves_compare {c : Op} {e : Elem} (native : cap.nativeCompare c e = true) {r : Bytes}
    (value : Lanes.eval? c e u v = some r) :
    ∃ s', x.Leaves [.compare c e (.xmm d) (.xmm a) y] s s' d t r := by
  obtain ⟨s', step, written⟩ := faithful.compare c e d a y native s r placed.destination
    (by simp [binary, placed.left, placed.right, value])
  exact ⟨s', written.leaves step⟩

/-- With the sources exchanged, a source in memory goes through the temporary. -/
theorem leaves_exchanged {c : Op} {e : Elem} (native : cap.nativeCompare c e = true) {r : Bytes}
    (value : Lanes.eval? c e v u = some r) :
    ∃ s', x.Leaves (Route.exchanged c e (.xmm d) (.xmm a) y (.xmm t)) s s' d t r := by
  have right := placed.right
  cases y with
  | reg q =>
    by_cases vector : q.kind = .vector
    · have name : q = .xmm q.index := by
        cases q
        simp_all [Reg.xmm]
      rw [source, if_pos vector] at right
      obtain ⟨s', step, written⟩ := faithful.compare c e d q.index (.reg (.xmm a)) native s r
        placed.destination (by simp [binary, source, Reg.xmm, right, placed.left, value])
      refine ⟨s', ?_⟩
      rw [Route.exchanged, name]
      exact written.leaves step
    · simp [source, vector] at right
  | mem m =>
    obtain ⟨s₁, load, loaded⟩ := faithful.move t (.mem m) s v placed.temporary right
    have left : x.vector s₁ a = some u := by
      rw [loaded.others a (Ne.symm placed.apartLeft), placed.left]
    have destination : (x.vector s₁ d).isSome := by
      rw [loaded.others d (Ne.symm placed.apartDestination)]
      exact placed.destination
    obtain ⟨s₂, step, written⟩ := faithful.compare c e d t (.reg (.xmm a)) native s₁ r destination
      (by simp [binary, source, Reg.xmm, loaded.here, left, value])
    exact ⟨s₂, Leaves.after load loaded (.inr rfl) (written.leaves step)⟩
  | imm i => simp [source] at right

/-- Equality of an extreme of the sources with one of them. -/
theorem leaves_extreme {op : Op} (extreme : op = .min ∨ op = .max) {e : Elem}
    (supported : cap.supports op e ≠ .unsupported) (native : cap.nativeCompare .ceq e = true)
    (first : Prop) [Decidable first] {m r : Bytes} (made : Lanes.eval? op e u v = some m)
    (value : Lanes.eval? .ceq e m (if first then u else v) = some r) :
    ∃ s', x.Leaves [.arith op e (.xmm t) (.xmm a) y,
      .compare .ceq e (.xmm d) (.xmm t) (if first then .reg (.xmm a) else y)] s s' d t r := by
  obtain ⟨s₁, arith, stored⟩ := faithful.extreme op e t a y extreme supported s m placed.temporary
    (by simp [binary, placed.left, placed.right, made])
  have destination : (x.vector s₁ d).isSome := by
    rw [stored.others d (Ne.symm placed.apartDestination)]
    exact placed.destination
  have left : x.vector s₁ a = some u := by
    rw [stored.others a (Ne.symm placed.apartLeft), placed.left]
  have right : x.source s₁ y = some v := by
    rw [source_of_writes faithful stored placed.apartRight, placed.right]
  have against : x.source s₁ (if first then .reg (.xmm a) else y) =
      some (if first then u else v) := by
    split
    · simp [source, Reg.xmm, left]
    · exact right
  obtain ⟨s₂, step, written⟩ := faithful.compare .ceq e d t
    (if first then .reg (.xmm a) else y) native s₁ r destination
    (by simp only [binary, stored.here, against, Option.bind_some, value])
  exact ⟨s₂, Leaves.after arith stored (.inr rfl) (written.leaves step)⟩

end

end Executor

/-! ## Routes -/

section
variable {σ ρ : Type} {x : Executor σ ρ} {cap : Capability} (faithful : x.Faithful cap) {s : σ}
  {d a t : Int} {y : Operand} {u v : Bytes} (placed : x.Placed s d a y t u v)
include faithful placed

/-- A justified route leaves the comparison in the destination. -/
theorem Route.Justified.leaves {c : Op} {e : Elem} {r : Route} (reason : Justified cap c e r)
    (compare : c.isCompare = true) (valid : e.valid = true) (whole : e.bytes ∣ u.size)
    (same : u.size = v.size) :
    ∃ s' w, Lanes.eval? c e u v = some w ∧
      x.Leaves (r.primitives c e (.xmm d) (.xmm a) y (.xmm t)) s s' d t w := by
  obtain ⟨w, value, _⟩ := Lanes.eval?_total valid whole same (Lanes.paired_of_isCompare compare)
  -- the complement of a comparator that some primitives leave
  have complemented {k : Op} {ps : List Primitive} (other : k.isCompare = true)
      (lanewise : ∀ x y, ~~~Lane.eval k e x y &&& e.mask = Lane.eval c e x y &&& e.mask)
      (done : ∀ r, Lanes.eval? k e u v = some r → ∃ s', x.Leaves ps s s' d t r) :
      ∃ s', x.Leaves (ps ++ [.not (.xmm d) (.xmm d)]) s s' d t w := by
    obtain ⟨r, made, _⟩ := Lanes.eval?_total valid whole same (Lanes.paired_of_isCompare other)
    obtain ⟨s₁, left⟩ := done r made
    rw [Lanes.eval?_complement valid whole same compare other lanewise, made] at value
    obtain ⟨s₂, turned⟩ := left.complement faithful
    exact ⟨s₂, Option.some.inj value ▸ turned⟩
  have isCompare_complement : c.complement.isCompare = true := (Op.isCompare_complement c).trans compare
  suffices ∃ s', x.Leaves (r.primitives c e (.xmm d) (.xmm a) y (.xmm t)) s s' d t w by
    obtain ⟨s', done⟩ := this
    exact ⟨s', w, value, done⟩
  cases reason with
  | direct native => exact Executor.leaves_compare faithful placed native value
  | swap native =>
    apply Executor.leaves_exchanged faithful placed native
    rw [Lanes.eval?_swapped valid whole same compare, value]
  | notEqual unequal native =>
    subst unequal
    exact complemented rfl (Lane.eval_unequal valid) fun r made =>
      Executor.leaves_compare faithful placed native made
  | notDirect integer native =>
    exact complemented isCompare_complement (Lane.eval_complement valid integer compare)
      fun r made => Executor.leaves_compare faithful placed native made
  | notSwap integer native =>
    refine complemented isCompare_complement (Lane.eval_complement valid integer compare)
      fun r made => Executor.leaves_exchanged faithful placed native ?_
    rw [Lanes.eval?_swapped valid whole same isCompare_complement, made]
  | minMax integer order native minimum maximum =>
    have strict (order : c = .clt ∨ c = .cgt) :
        ∃ s', x.Leaves (Route.minMax.primitives c e (.xmm d) (.xmm a) y (.xmm t)) s s' d t w := by
      obtain ⟨m, r, made, equal, result⟩ := Lanes.eval?_below valid whole same order integer
      obtain ⟨s₁, left⟩ :=
        Executor.leaves_extreme faithful placed (.inr rfl) maximum native (c = .clt) made equal
      obtain ⟨s₂, turned⟩ := left.complement faithful
      rw [← Option.some.inj (result.symm.trans value)]
      refine ⟨s₂, ?_⟩
      rcases order with rfl | rfl <;> simpa [Route.primitives] using turned
    have loose (order : c = .cle ∨ c = .cge) :
        ∃ s', x.Leaves (Route.minMax.primitives c e (.xmm d) (.xmm a) y (.xmm t)) s s' d t w := by
      obtain ⟨m, made, equal⟩ := Lanes.eval?_atMost valid whole same order integer
      obtain ⟨s₁, left⟩ := Executor.leaves_extreme faithful placed (.inl rfl) minimum native
        (c = .cle) made (equal.trans value)
      refine ⟨s₁, ?_⟩
      rcases order with rfl | rfl <;> simpa [Route.primitives] using left
    rcases order with order | order | order | order
    · exact strict (.inl order)
    · exact strict (.inr order)
    · exact loose (.inl order)
    · exact loose (.inr order)

end

/-! ## The reference machine -/

/-- The reference machine as an executor of steps that do not jump. -/
def Machine.executor (cfg : Config) : Executor Machine (Vector UInt64 32 × Bytes) where
  vector := vectorAt?
  rest m := (m.bases, m.memory)
  load m x := (m.load cfg x cfg.physBytes).toOption
  exec p m :=
    match m.step cfg p with
    | .ok (m, none) => some m
    | _ => none

namespace Machine

theorem toOption_eq_some {α : Type} {x : Except Fault α} {a : α} :
    x.toOption = some a ↔ x = .ok a := by
  cases x <;> simp [Except.toOption]

theorem vectorOf_of_source {cfg : Config} {m : Machine} {y : Operand} {v : Bytes}
    (read : (executor cfg).source m y = some v) : m.vectorOf cfg y = .ok v := by
  cases y with
  | reg r =>
    by_cases vector : r.kind = .vector
    · rw [Executor.source, if_pos vector] at read
      exact vector_eq_ok.mpr read
    · simp [Executor.source, vector] at read
  | mem x => exact toOption_eq_some.mp read
  | imm i => simp [Executor.source] at read

/-- A primitive that ends by writing a register realises what it writes. -/
theorem realises_of_effect {cfg : Config} {p : Primitive} {d : Int}
    {result : Machine → Option Bytes} (still : ∀ m, jumpOf cfg m p = .ok none)
    (effect : ∀ m v, result m = some v → m.effect cfg p = m.setVector (.xmm d) v) :
    (executor cfg).Realises p d result := by
  intro m v known value
  obtain ⟨m', written, change⟩ := setVector_writes (r := .xmm d) known v
  have step : m.step cfg p = .ok (m', none) := by
    rw [Machine.step, effect m v value, written, still m]
    rfl
  refine ⟨m', ?_, change.here, change.others, ?_⟩
  · simp only [executor, step]
  · simp [executor, change.bases, change.memory]

theorem binary_eq {cfg : Config} {op : Op} {e : Elem} {d a : Int} {y : Operand} {m : Machine}
    {v : Bytes} (value : (executor cfg).binary op e a y m = some v) :
    m.binary cfg op e (.xmm d) (.xmm a) y = m.setVector (.xmm d) v := by
  simp only [Executor.binary, Option.bind_eq_some_iff] at value
  obtain ⟨u, left, w, right, value⟩ := value
  have left : m.vector (.xmm a) = .ok u := vector_eq_ok.mpr left
  simp [binary, vectorOf_of_source right, left, value, orTrap, bind, Except.bind]

theorem realises_move {cfg : Config} {d : Int} {y : Operand} :
    (executor cfg).Realises (.move (.reg (.xmm d)) y) d ((executor cfg).source · y) :=
  realises_of_effect (fun _ => rfl) fun m v value => by
    simp [effect, vectorOf_of_source value, bind, Except.bind]

theorem realises_not {cfg : Config} {d a : Int} :
    (executor cfg).Realises (.not (.xmm d) (.xmm a)) d
      fun m => (m.vectorAt? a).bind (Lanes.eval? .not .u8 · #[]) :=
  realises_of_effect (fun _ => rfl) fun m v value => by
    obtain ⟨u, read, value⟩ := Option.bind_eq_some_iff.mp value
    have read : m.vector (.xmm a) = .ok u := vector_eq_ok.mpr read
    simp [effect, read, value, orTrap, bind, Except.bind]

/-- A primitive that computes a lanewise operation realises it. -/
theorem realises_binary {cfg : Config} {p : Primitive} {op : Op} {e : Elem} {d a : Int}
    {y : Operand} (still : ∀ m, jumpOf cfg m p = .ok none)
    (effect : ∀ m, effect cfg m p = m.binary cfg op e (.xmm d) (.xmm a) y) :
    (executor cfg).Realises p d ((executor cfg).binary op e a y) :=
  realises_of_effect still fun m _ value => (effect m).trans (binary_eq value)

/-- The reference machine does what the lanes say, whatever is asked of it. -/
theorem executor_faithful (cfg : Config) (cap : Capability) : (executor cfg).Faithful cap where
  loads m m' rest := by
    obtain ⟨bases, memory⟩ := Prod.mk.inj rest
    funext x
    simp only [executor, load_congr bases memory]
  move _ _ := realises_move
  not _ _ := realises_not
  extreme _ _ _ _ _ _ _ := realises_binary (fun _ => rfl) (fun _ => rfl)
  compare _ _ _ _ _ _ := realises_binary (fun _ => rfl) (fun _ => rfl)

end Machine

/-! ## Correctness of derived comparators -/

/-- On an executor that is faithful to a capability, with any set of native comparators and any
answers for minima and maxima, the primitives of the chosen route leave the comparison of the initial
values in the destination and change at most the temporary besides. Every comparator they use is
native, and floats never take a route through a complement of an ordered comparator. -/
theorem derived_compare_correct {σ ρ : Type} {x : Executor σ ρ} {cap : Capability}
    (faithful : x.Faithful cap) {c : Op} {e : Elem} (routed : cap.route c e ≠ .none) {s : σ}
    {d a t : Int} {y : Operand} {u v : Bytes} (placed : x.Placed s d a y t u v)
    (whole : e.bytes ∣ u.size) (same : u.size = v.size) :
    let primitives := (cap.route c e).primitives c e (.xmm d) (.xmm a) y (.xmm t)
    (∃ s' w, Lanes.eval? c e u v = some w ∧ x.Leaves primitives s s' d t w) ∧
      (∀ k f d' a' y', .compare k f d' a' y' ∈ primitives → cap.nativeCompare k f = true) ∧
      (e.isFloat = true →
        cap.route c e ≠ .notDirect ∧ cap.route c e ≠ .notSwap ∧ cap.route c e ≠ .minMax) := by
  obtain ⟨compare, valid⟩ := Route.defined_of_routed routed
  have reason := Route.justified routed
  refine ⟨reason.leaves faithful placed compare valid whole same, ?_, Route.float_route⟩
  intro k f d' a' y' member
  exact reason.native_of_mem member

/-- A greater-than in place against memory, on a machine that only compares for equality. -/
theorem derived_compare_correct_in_place :
    let cfg := Config.x86 .sse4 "sse4" "128" 16 1
    let cap := (Program.backend cfg ⟨true, false⟩).toCapability
    let m := Machine.init cfg (Array.replicate 32 0x80)
    let y : Operand := .mem (.plain (.base 3) ⟨16, .dp⟩)
    cap.route .cgt .s16 = .minMax ∧
      ∃ m', (Machine.executor cfg).Leaves
        ((cap.route .cgt .s16).primitives .cgt .s16 (.xmm 1) (.xmm 1) y (.xmm 14)) m m' 1 14
        (Array.replicate 16 0xFF) := by
  intro cfg cap m y
  have value : Lanes.eval? .cgt .s16 (Bytes.zeros 16) (Array.replicate 16 0x80) =
      some (Array.replicate 16 0xFF) := by decide
  have placed : (Machine.executor cfg).Placed m 1 1 y 14 (Bytes.zeros 16)
      (Array.replicate 16 0x80) :=
    { destination := rfl
      temporary := rfl
      left := rfl
      right := by decide
      apartDestination := by decide
      apartLeft := by decide
      apartRight := by decide }
  obtain ⟨⟨m', w, result, done⟩, -⟩ := derived_compare_correct
    (Machine.executor_faithful cfg cap) (c := .cgt) (e := .s16) (by decide) placed (by decide) rfl
  rw [value] at result
  obtain rfl := Option.some.inj result
  exact ⟨by decide, m', done⟩

end LaneAsm
