import LaneAsm.Backend

/-!
Comparators that a backend lacks are derived from those it has. A route says how.
-/
namespace LaneAsm

/-- How a comparator is realised. -/
inductive Route where
  | none
  /-- The comparator itself. -/
  | direct
  /-- The swapped comparator with the sources exchanged. -/
  | swap
  /-- The complement of equality. -/
  | notEqual
  /-- The complement of the complementary comparator. -/
  | notDirect
  /-- The complement of the complementary comparator with the sources exchanged. -/
  | notSwap
  /-- Equality with the minimum or the maximum. -/
  | minMax
deriving Repr, DecidableEq, Inhabited

def Route.text : Route → String
  | .none => "none"
  | .direct => "direct"
  | .swap => "swap"
  | .notEqual => "not-eq"
  | .notDirect => "not-direct"
  | .notSwap => "not-swap"
  | .minMax => "min-max"

namespace Capability

/-- The cheapest route to a comparator. Floats take no complements, which would make ordered
predicates hold on values that are not numbers. -/
def route (cap : Capability) (c : Op) (e : Elem) : Route :=
  let native := fun c => cap.nativeCompare c e
  let k := c.complement
  if !c.isCompare || !c.applies e then .none
  else if native c then .direct
  else if c = .cne then if native .ceq then .notEqual else .none
  else if c.swapped ≠ c && native c.swapped then .swap
  else if e.isFloat then .none
  else if native k then .notDirect
  else if k.swapped ≠ k && native k.swapped then .notSwap
  else if native .ceq && cap.supports .min e ≠ .unsupported && cap.supports .max e ≠ .unsupported
  then .minMax
  else .none

/-- How an operation is realised, with derived comparators taken into account. -/
def support (cap : Capability) (op : Op) (e : Elem) : Support :=
  if !op.applies e then .unsupported
  else if op.isCompare then
    match cap.route op e with
    | .none => .unsupported
    | .direct => cap.supports op e
    | _ => .derived
  else cap.supports op e

end Capability

/-- The comparator `c` of `y` and `x`. A source in memory is loaded into the temporary
first, as only the second source of a comparator may be in memory. -/
def Route.exchanged (c : Op) (e : Elem) (d x : Reg) (y : Operand) (t : Reg) : List Primitive :=
  match y with
  | .reg y => [.compare c e d y x]
  | y => [.move t y, .compare c e d t x]

/-- The primitives that leave the comparison `c` of `x` and `y` in `d`, with `t` as temporary. -/
def Route.primitives (r : Route) (c : Op) (e : Elem) (d x : Reg) (y : Operand) (t : Reg) :
    List Primitive :=
  match r with
  | .none => []
  | .direct => [.compare c e d x y]
  | .swap => exchanged c.swapped e d x y t
  | .notEqual => [.compare .ceq e d x y, .not d d]
  | .notDirect => [.compare c.complement e d x y, .not d d]
  | .notSwap => exchanged c.complement.swapped e d x y t ++ [.not d d]
  | .minMax =>
    let strict := c = .cgt ∨ c = .clt
    let against : Operand := if c = .cle ∨ c = .clt then x else y
    [.arith (if strict then .max else .min) e t x y, .compare .ceq e d t against]
      ++ if strict then [.not d d] else []

end LaneAsm
