import LaneAsm.Proofs.Requests

/-!
Emissions that fail. What was produced before an error stays produced, so an emission that checks
everything first (`Leaves False`) and one that has started before it notices what is wrong
(`Leaves True`) differ in what they leave behind.
-/
namespace LaneAsm

namespace Emission

variable {ι α β : Type} {stray : Prop}

/-- No error ends the emission; a trap may. -/
def Total (x : Emission ι α) : Prop := ∀ e, x.outcome ≠ .error (.error e)

/-- Where an error ends the emission, something was produced before it exactly if `stray` holds. -/
def Leaves (stray : Prop) (x : Emission ι α) : Prop :=
  ∀ e, x.outcome = .error (.error e) → (x.items = [] ↔ ¬ stray)

theorem bind_of_ok {x : Emission ι α} {a : α} (ended : x.outcome = .ok a) (f : α → Emission ι β) :
    x >>= f = ⟨x.items ++ (f a).items, (f a).outcome⟩ := by
  show Emission.bind x f = _
  rw [Emission.bind, ended]

theorem bind_of_error {x : Emission ι α} {fault : Fault} (ended : x.outcome = .error fault)
    (f : α → Emission ι β) : x >>= f = ⟨x.items, .error fault⟩ := by
  show Emission.bind x f = _
  rw [Emission.bind, ended]

namespace Total

theorem pure (a : α) : (Pure.pure a : Emission ι α).Total := fun _ => nofun

theorem emitAll (is : List ι) : (Emission.emitAll is).Total := fun _ => nofun

theorem emit (i : ι) : (Emission.emit i).Total := fun _ => nofun

theorem bind {x : Emission ι α} {f : α → Emission ι β} (first : x.Total)
    (rest : ∀ a, x.outcome = .ok a → (f a).Total) : (x >>= f).Total := by
  intro e failed
  cases ended : x.outcome with
  | ok a =>
    rw [bind_of_ok ended] at failed
    exact rest a ended e failed
  | error fault =>
    rw [bind_of_error ended] at failed
    obtain rfl := Except.error.inj failed
    exact first e ended

theorem check {x : Except Error α} {a : α} {f : α → Emission ι β} (passed : x = .ok a)
    (rest : (f a).Total) : (Emission.check x >>= f).Total := by
  subst passed
  exact rest

theorem each {f : α → Emission ι Unit} {as : List α} (step : ∀ a ∈ as, (f a).Total) :
    (Emission.each f as).Total := by
  induction as with
  | nil => exact pure ()
  | cons a as ih =>
    refine (step a List.mem_cons_self).bind fun _ _ => ih fun b member => ?_
    exact step b (List.mem_cons_of_mem a member)

theorem andFinally {x : Emission ι α} (first : x.Total) (last : List ι) :
    (x.andFinally last).Total := first

end Total

namespace Leaves

theorem of_total {x : Emission ι α} (total : x.Total) : x.Leaves stray :=
  fun e failed => absurd failed (total e)

theorem of_nil {x : Emission ι α} (nothing : x.items = []) (clean : ¬ stray) : x.Leaves stray :=
  fun _ _ => iff_of_true nothing clean

theorem fail (c : Cause) (clean : ¬ stray) : (.fail c : Emission ι α).Leaves stray := of_nil rfl clean

/-- A check produces nothing, so that what follows it decides. -/
theorem check {x : Except Error α} {f : α → Emission ι β} (refused : ∀ e, x = .error e → ¬ stray)
    (rest : ∀ a, x = .ok a → (f a).Leaves stray) : (Emission.check x >>= f).Leaves stray := by
  cases x with
  | ok a => exact rest a rfl
  | error e => exact of_nil rfl (refused e rfl)

/-- An error of the first part ends the whole where the rest has none. -/
theorem bind {x : Emission ι α} {f : α → Emission ι β} (first : x.Leaves stray)
    (rest : ∀ a, x.outcome = .ok a → (f a).Total) : (x >>= f).Leaves stray := by
  intro e failed
  cases ended : x.outcome with
  | ok a =>
    rw [bind_of_ok ended] at failed
    exact absurd failed (rest a ended e)
  | error fault =>
    rw [bind_of_error ended] at failed ⊢
    obtain rfl := Except.error.inj failed
    exact first e ended

/-- An emission that produces something however it ends. -/
theorem of_started {x : Emission ι α} (started : x.items ≠ []) (total : ¬ stray → x.Total) :
    x.Leaves stray := by
  intro e failed
  refine iff_of_false started fun clean => ?_
  exact total clean e failed

/-- An error after a first part that produced something. -/
theorem after {x : Emission ι α} {f : α → Emission ι β} (first : x.Total)
    (started : ∀ a, x.outcome = .ok a → x.items ≠ []) (late : stray) : (x >>= f).Leaves stray := by
  intro e failed
  refine iff_of_false ?_ (not_not_intro late)
  cases ended : x.outcome with
  | ok a =>
    rw [bind_of_ok ended]
    exact fun nothing => started a ended (List.append_eq_nil_iff.mp nothing).1
  | error fault =>
    rw [bind_of_error ended] at failed
    obtain rfl := Except.error.inj failed
    exact absurd ended (first e)

end Leaves

end Emission

end LaneAsm
