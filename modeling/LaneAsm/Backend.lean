import LaneAsm.Bytes
import LaneAsm.Error
import LaneAsm.Primitive
import LaneAsm.Target

/-!
Backends: what a target can do, and how a program for it grows primitive by primitive.
-/
namespace LaneAsm

/-- How a backend realises an operation. -/
inductive Support where
  | unsupported
  | native
  | fallback
  | derived
deriving Repr, DecidableEq, Inhabited

def Support.text : Support → String
  | .unsupported => "-"
  | .native => "native"
  | .fallback => "fallback"
  | .derived => "derived"

/-- What a backend can do, whatever the program so far. -/
structure Capability where
  config : Config
  supports : Op → Elem → Support
  /-- Whether a comparator is encoded without deriving it from others. -/
  nativeCompare : Op → Elem → Bool

/-- A backend whose programs are values of type `σ`. A request that fails may leave part of its work
behind, so every request gives the program after it. -/
structure Backend (σ : Type) extends Capability where
  size : σ → Nat
  newLabel : RawText → σ → Label × σ
  issue : Primitive → σ → Except Fault Unit × σ
  finish : σ → Except Fault Bytes × σ

namespace Backend

variable {σ : Type}

/-- Issues primitives in order, up to the first fault. -/
def issueAll (b : Backend σ) : List Primitive → σ → Except Fault Unit × σ
  | [], s => (.ok (), s)
  | p :: ps, s =>
    match b.issue p s with
    | (.ok (), s) => issueAll b ps s
    | (.error e, s) => (.error e, s)

end Backend

end LaneAsm
