import LaneAsm.Error

/-!
Emissions: items produced in order, together with how producing them ended. What was produced
before a fault stays produced.
-/
namespace LaneAsm

/-- Items produced on the way to a result or a fault. -/
structure Emission (ι α : Type) where
  items : List ι
  outcome : Except Fault α
deriving Repr

namespace Emission

variable {ι α β : Type}

/-- A result with nothing produced. -/
protected def pure (a : α) : Emission ι α := ⟨[], .ok a⟩

/-- Continues with a result; the items of both parts stay, in order. -/
protected def bind (x : Emission ι α) (f : α → Emission ι β) : Emission ι β :=
  match x.outcome with
  | .ok a => ⟨x.items ++ (f a).items, (f a).outcome⟩
  | .error e => ⟨x.items, .error e⟩

instance : Monad (Emission ι) where
  pure := Emission.pure
  bind := Emission.bind

/-- Produces one item. -/
def emit (i : ι) : Emission ι Unit := ⟨[i], .ok ()⟩

/-- Produces items. -/
def emitAll (is : List ι) : Emission ι Unit := ⟨is, .ok ()⟩

/-- Fails for a cause. -/
def fail (c : Cause) : Emission ι α := ⟨[], Fault.fail c⟩

/-- Ends in a trap. -/
def trap : Emission ι α := ⟨[], .error .trap⟩

/-- The outcome of a check, with nothing produced. -/
def check (x : Except Error α) : Emission ι α := ⟨[], Fault.lift x⟩

/-- Produces the items of each element in order, up to the first fault. -/
def each (f : α → Emission ι Unit) : List α → Emission ι Unit
  | [] => .pure ()
  | a :: as => do
    f a
    each f as

/-- Produces further items however the first part ended. -/
def andFinally (x : Emission ι α) (last : List ι) : Emission ι α := ⟨x.items ++ last, x.outcome⟩

end Emission

end LaneAsm
