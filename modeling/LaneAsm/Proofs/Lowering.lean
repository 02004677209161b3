import LaneAsm.Assembler.Lower
import LaneAsm.Proofs.Machine

/-!
What a lowering that succeeds is made of. An instruction on vectors lowers to the primitives of its
halves one after the other (`lower_halved`); the checks that let it through are kept in `Accepts`.
-/
namespace LaneAsm

namespace Emission

variable {ι α β : Type}

/-- A sequence that succeeds is two parts that succeed. -/
theorem bind_ok {x : Emission ι α} {f : α → Emission ι β} {b : β}
    (ok : (x >>= f).outcome = .ok b) :
    ∃ a, x.outcome = .ok a ∧ (f a).outcome = .ok b ∧ (x >>= f).items = x.items ++ (f a).items := by
  cases found : x.outcome with
  | ok a =>
    refine ⟨a, rfl, ?_, ?_⟩
    · simpa [bind, Emission.bind, found] using ok
    · simp [bind, Emission.bind, found]
  | error e => simp [bind, Emission.bind, found] at ok

theorem check_ok {x : Except Error α} {f : α → Emission ι β} {b : β}
    (ok : (check x >>= f).outcome = .ok b) :
    ∃ a, x = .ok a ∧ (f a).outcome = .ok b ∧ (check x >>= f).items = (f a).items := by
  obtain ⟨a, passed, rest, items⟩ := bind_ok ok
  refine ⟨a, ?_, rest, items⟩
  cases x with
  | ok a => rw [Except.ok.inj passed]
  | error e => cases passed

/-- A loop that succeeds is the work of its elements, in order. -/
theorem each_ok {f : α → Emission ι Unit} {as : List α} (ok : (each f as).outcome = .ok ()) :
    (∀ a ∈ as, (f a).outcome = .ok ()) ∧ (each f as).items = as.flatMap fun a => (f a).items := by
  induction as with
  | nil => simp [each, Emission.pure]
  | cons a as ih =>
    rw [each] at ok ⊢
    obtain ⟨_, first, rest, items⟩ := bind_ok ok
    obtain ⟨others, work⟩ := ih rest
    refine ⟨?_, ?_⟩
    · intro b member
      rcases List.mem_cons.mp member with rfl | later
      · exact first
      · exact others b later
    · rw [items, work, List.flatMap_cons]

end Emission

namespace Config

/-- A vector register that portable instructions may name. -/
def Usable (cfg : Config) (r : Reg) : Prop :=
  r.kind = .vector ∧ 0 ≤ r.index ∧ r.index < cfg.vectorRegs

theorem usable_of_checkVector {cfg : Config} {r : Reg} (ok : cfg.checkVector r = .ok ()) :
    cfg.Usable r := by
  unfold checkVector at ok
  split at ok
  · cases ok
  · split at ok
    · cases ok
    · rename_i vector inside
      exact ⟨by simpa using vector, by omega, by omega⟩

end Config

namespace Capability

/-- The instructions whose work is done for each half in turn. -/
def halved : Instr LabelRef → Bool
  | .mov _ _ | .logic _ _ _ _ | .not _ _ | .arith _ _ _ _ _ | .shift _ _ _ _ _
  | .shiftEach _ _ _ _ _ | .compare _ _ _ _ _ | .merge _ _ => true
  | _ => false

/-- The primitives of one half of such an instruction. -/
def lowerHalf (cap : Capability) (h : Nat) : Instr LabelRef → Except Error (List Primitive)
  | .mov dst src => do return [.move (← cap.config.half dst h) (← cap.config.half src h)]
  | .logic op dst s1 s2 => do
    let y ← cap.config.half s2 h
    let d := cap.config.phys dst h
    let x := cap.config.phys s1 h
    return if cap.supports op .u32 = .native then [.logic op d x y]
      else complementThen op d x y (cap.config.temp h)
  | .not dst src => return [.not (cap.config.phys dst h) (cap.config.phys src h)]
  | .arith op e dst s1 s2 => do
    return [.arith op e (cap.config.phys dst h) (cap.config.phys s1 h) (← cap.config.half s2 h)]
  | .shift op e dst src count =>
    return [.shift op e (cap.config.phys dst h) (cap.config.phys src h) count]
  | .shiftEach op e dst src counts => do
    return [.shiftEach op e (cap.config.phys dst h) (cap.config.phys src h)
      (← cap.config.half counts h)]
  | .compare c e dst s1 s2 => do
    return (cap.route c e).primitives c e (cap.config.phys dst h) (cap.config.phys s1 h)
      (← cap.config.half s2 h) (cap.config.temp h)
  | .merge dst src => do
    return [.merge (cap.config.phys dst h) (← cap.config.half src h) (cap.config.phys Reg.mask h)]
  | _ => .ok []

/-- The checks that such an instruction has to pass, whichever half is at hand. -/
def Accepts (cap : Capability) : Instr LabelRef → Prop
  | .mov dst src =>
    Config.checkMove cap.config.checkVector cap.config.checkVectorSource dst src = .ok ()
  | .logic _ dst s1 s2 => cap.config.checkSources dst s1 s2 = .ok ()
  | .not dst src => cap.config.checkVector dst = .ok () ∧ cap.config.checkVector src = .ok ()
  | .arith op e dst s1 s2 | .shiftEach op e dst s1 s2 =>
    cap.checkSupported op e = .ok () ∧ cap.config.checkSources dst s1 s2 = .ok ()
  | .shift op e dst src _ => cap.checkSupported op e = .ok () ∧
    cap.config.checkVector dst = .ok () ∧ cap.config.checkVector src = .ok ()
  | .compare c e dst s1 s2 =>
    cap.route c e ≠ .none ∧ cap.config.checkSources dst s1 s2 = .ok ()
  | .merge dst src =>
    cap.config.checkVector dst = .ok () ∧ cap.config.checkVectorSource src = .ok ()
  | _ => True

/-- Work on each half that succeeds is that of the halves in order. -/
theorem eachHalf_ok {cap : Capability} {f : Nat → Lowering Unit} (ok : (cap.eachHalf f).outcome = .ok ())
    {g : Nat → Except Error (List Primitive)}
    (same : ∀ h, (f h).outcome = .ok () → g h = .ok (f h).items) :
    ∃ w : Nat → List Primitive, (∀ h < cap.config.halves, g h = .ok (w h)) ∧
      (cap.eachHalf f).items = (List.range cap.config.halves).flatMap w := by
  obtain ⟨each, items⟩ := Emission.each_ok ok
  exact ⟨_, fun h inside => same h (each h (List.mem_range.mpr inside)), items⟩

/-- The work on a half that only has to find the half of one operand. -/
theorem half_ok {x : Except Error Operand} {k : Operand → List Primitive}
    (ok : (Emission.check x >>= fun y => Emission.emitAll (k y)).outcome = .ok ()) :
    x >>= (fun y => pure (k y)) =
      .ok (Emission.check x >>= fun y => Emission.emitAll (k y)).items := by
  obtain ⟨y, rfl, _, _⟩ := Emission.check_ok ok
  rfl

/-- An instruction on vectors that lowers passes its checks, and its primitives are those of its
halves in order. -/
theorem lower_halved {cap : Capability} {i : Instr LabelRef} (vector : halved i = true)
    (ok : (cap.lower i).outcome = .ok ()) :
    cap.Accepts i ∧ ∃ w : Nat → List Primitive,
      (∀ h < cap.config.halves, cap.lowerHalf h i = .ok (w h)) ∧
      (cap.lower i).items = (List.range cap.config.halves).flatMap w := by
  cases i with
  | mov dst src =>
    dsimp only [lower] at ok ⊢
    obtain ⟨_, passed, rest, items⟩ := Emission.check_ok ok
    obtain ⟨w, each, work⟩ := eachHalf_ok (g := (cap.lowerHalf · (.mov dst src))) rest (by
      intro h ok
      obtain ⟨d, found, rest, items⟩ := Emission.check_ok ok
      rw [items, lowerHalf, found]
      exact half_ok (k := fun s => [.move d s]) rest)
    exact ⟨passed, w, each, items.trans work⟩
  | logic op dst s1 s2 =>
    dsimp only [lower] at ok ⊢
    obtain ⟨_, passed, rest, items⟩ := Emission.check_ok ok
    obtain ⟨w, each, work⟩ := eachHalf_ok (g := (cap.lowerHalf · (.logic op dst s1 s2))) rest (by
      intro h ok
      rw [lowerHalf]
      by_cases native : cap.supports op .u32 = .native
      · simp only [native, ↓reduceIte] at ok ⊢
        exact half_ok ok
      · simp only [native, ↓reduceIte] at ok ⊢
        exact half_ok ok)
    exact ⟨passed, w, each, items.trans work⟩
  | not dst src =>
    dsimp only [lower] at ok ⊢
    obtain ⟨_, first, rest, items⟩ := Emission.check_ok ok
    obtain ⟨_, second, rest, items'⟩ := Emission.check_ok rest
    obtain ⟨w, each, work⟩ :=
      eachHalf_ok (g := (cap.lowerHalf · (.not dst src))) rest fun h _ => rfl
    exact ⟨⟨first, second⟩, w, each, (items.trans items').trans work⟩
  | arith op e dst s1 s2 =>
    dsimp only [lower] at ok ⊢
    obtain ⟨_, supported, rest, items⟩ := Emission.check_ok ok
    obtain ⟨_, passed, rest, items'⟩ := Emission.check_ok rest
    obtain ⟨w, each, work⟩ :=
      eachHalf_ok (g := (cap.lowerHalf · (.arith op e dst s1 s2))) rest fun h => half_ok
    exact ⟨⟨supported, passed⟩, w, each, (items.trans items').trans work⟩
  | shift op e dst src count =>
    dsimp only [lower] at ok ⊢
    obtain ⟨_, supported, rest, items⟩ := Emission.check_ok ok
    obtain ⟨_, first, rest, items'⟩ := Emission.check_ok rest
    obtain ⟨_, second, rest, items''⟩ := Emission.check_ok rest
    obtain ⟨_, _, rest, items₃⟩ := Emission.check_ok rest
    obtain ⟨w, each, work⟩ :=
      eachHalf_ok (g := (cap.lowerHalf · (.shift op e dst src count))) rest fun h _ => rfl
    exact ⟨⟨supported, first, second⟩, w, each,
      (((items.trans items').trans items'').trans items₃).trans work⟩
  | shiftEach op e dst src counts =>
    dsimp only [lower] at ok ⊢
    obtain ⟨_, supported, rest, items⟩ := Emission.check_ok ok
    obtain ⟨_, passed, rest, items'⟩ := Emission.check_ok rest
    obtain ⟨w, each, work⟩ :=
      eachHalf_ok (g := (cap.lowerHalf · (.shiftEach op e dst src counts))) rest fun h => half_ok
    exact ⟨⟨supported, passed⟩, w, each, (items.trans items').trans work⟩
  | compare c e dst s1 s2 =>
    dsimp only [lower] at ok ⊢
    obtain ⟨_, passed, rest, items⟩ := Emission.check_ok ok
    split at rest
    · cases rest
    · rename_i routed
      obtain ⟨w, each, work⟩ :=
        eachHalf_ok (g := (cap.lowerHalf · (.compare c e dst s1 s2))) rest fun h => half_ok
      refine ⟨⟨routed, passed⟩, w, each, items.trans ?_⟩
      rw [if_neg routed]
      exact work
  | merge dst src =>
    dsimp only [lower] at ok ⊢
    obtain ⟨_, first, rest, items⟩ := Emission.check_ok ok
    obtain ⟨_, second, rest, items'⟩ := Emission.check_ok rest
    obtain ⟨w, each, work⟩ :=
      eachHalf_ok (g := (cap.lowerHalf · (.merge dst src))) rest fun h => half_ok
    exact ⟨⟨first, second⟩, w, each, (items.trans items').trans work⟩
  | _ => cases vector

theorem lower_one {cap : Capability} (single : cap.config.halves = 1) {i : Instr LabelRef}
    (vector : halved i = true) (ok : (cap.lower i).outcome = .ok ()) :
    cap.Accepts i ∧ cap.lowerHalf 0 i = .ok (cap.lower i).items := by
  obtain ⟨accepted, w, each, items⟩ := lower_halved vector ok
  rw [single] at each items
  refine ⟨accepted, ?_⟩
  rw [each 0 Nat.one_pos, items]
  simp [show List.range 1 = [0] from rfl]

theorem lower_two {cap : Capability} (double : cap.config.halves = 2) {i : Instr LabelRef}
    (vector : halved i = true) (ok : (cap.lower i).outcome = .ok ()) :
    cap.Accepts i ∧ ∃ ps qs, cap.lowerHalf 0 i = .ok ps ∧ cap.lowerHalf 1 i = .ok qs ∧
      (cap.lower i).items = ps ++ qs := by
  obtain ⟨accepted, w, each, items⟩ := lower_halved vector ok
  rw [double] at each items
  refine ⟨accepted, w 0, w 1, each 0 Nat.zero_lt_two, each 1 Nat.one_lt_two, ?_⟩
  rw [items]
  simp [show List.range 2 = [0, 1] from rfl]

/-- The primitive of an instruction that does not work on vectors. -/
def single? : Instr LabelRef → Option Primitive
  | .movBase dst src => some (.moveBase dst src)
  | .arithBase op dst src => some (.arithBase op dst src)
  | .shiftBase op signed dst count => some (.shiftBase op signed dst count)
  | .compareJump x y cond target => some (.compareJump cond x y target)
  | .jump target => some (.jump target)
  | .bind label => some (.bind label)
  | _ => none

theorem lower_single {cap : Capability} {i : Instr LabelRef} {p : Primitive}
    (single : single? i = some p) (ok : (cap.lower i).outcome = .ok ()) :
    (cap.lower i).items = [p] := by
  cases i with
  | movBase dst src =>
    cases single
    obtain ⟨_, _, _, items⟩ := Emission.check_ok ok
    exact items
  | arithBase op dst src | shiftBase op signed dst count =>
    cases single
    obtain ⟨_, _, rest, items⟩ := Emission.check_ok ok
    obtain ⟨_, _, _, items'⟩ := Emission.check_ok rest
    exact items.trans items'
  | compareJump x y cond target =>
    cases single
    obtain ⟨_, _, rest, items⟩ := Emission.check_ok ok
    obtain ⟨_, _, rest, items'⟩ := Emission.check_ok rest
    refine (items.trans items').trans ?_
    cases cond with
    | other code => cases rest
    | _ => rfl
  | jump target | bind label =>
    cases single
    rfl
  | _ => cases single

theorem lower_maskJump {cap : Capability} {src : Reg} {cond : MaskCond} {target : LabelRef}
    (ok : (cap.lower (.maskJump src cond target)).outcome = .ok ()) :
    cap.config.checkVector src = .ok () ∧ (cap.lower (.maskJump src cond target)).items =
      if cap.config.halves = 1 then [.maskJump (cap.config.phys src 0) cond target]
      else [.logic (if cond = .full then .and else .orr) (cap.config.temp 0)
        (cap.config.phys src 0) (cap.config.phys src 1), .maskJump (cap.config.temp 0) cond target] := by
  obtain ⟨_, passed, _, items⟩ := Emission.check_ok ok
  refine ⟨passed, items.trans ?_⟩
  split <;> rfl

end Capability

end LaneAsm
