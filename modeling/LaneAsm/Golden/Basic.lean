import LaneAsm.Catalog
import LaneAsm.Encoder

/-!
Golden vectors: listings with the code expected of them. `Golden.check` finds the vectors whose code
has drifted, and `Golden.update` takes the present code for the expected one.
-/
namespace LaneAsm

/-- A listing for a target, with its expected code in hexadecimal. -/
structure GoldenVector where
  name : String
  profile : String
  source : String
  code : String
deriving Repr, DecidableEq, Inhabited

/-- A set of golden vectors; `none` if it has no list of them. -/
structure Golden where
  vectors? : Option (List GoldenVector)
deriving Repr, DecidableEq, Inhabited

/-- A vector that is not encoded as expected. An error leaves `got` empty. -/
structure Drift where
  name : String
  want : String
  got : String
  error? : Option Error
deriving Repr, DecidableEq

/-- The present code of a vector, in hexadecimal. Errors of the listing name the vector. -/
def GoldenVector.encode (c : Catalog) (v : GoldenVector) : Except Fault String := do
  let cfg ← Fault.lift (c.find v.profile)
  match LaneAsm.encode cfg (.ofString v.source) with
  | .ok code => return Text.hexBytes code.toList
  | .error f => throw (f.within (.named v.name))

/-- The drift of a vector, if it has drifted. -/
def GoldenVector.drift? (c : Catalog) (v : GoldenVector) : Except Fault (Option Drift) :=
  match v.encode c with
  | .ok got => .ok (if got = v.code then none else some ⟨v.name, v.code, got, none⟩)
  | .error (.error e) => .ok (some ⟨v.name, v.code, "", some e⟩)
  | .error .trap => .error .trap

namespace Golden

/-- The vectors of a set. -/
def vectors (g : Golden) : List GoldenVector := g.vectors?.getD []

/-- The names of the vectors in increasing order. -/
def names (g : Golden) : List String :=
  (g.vectors.map (·.name)).mergeSort fun a b => !(b < a)

/-- The vectors that have drifted, in order. -/
def check (c : Catalog) (g : Golden) : Except Fault (List Drift) := do
  return (← g.vectors.mapM (GoldenVector.drift? c)).filterMap id

/-- Puts the present code into vectors, up to the first that cannot be encoded. -/
def updateVectors (c : Catalog) : List GoldenVector → Except Fault Unit × List GoldenVector
  | [] => (.ok (), [])
  | v :: rest =>
    match v.encode c with
    | .error f => (.error f, v :: rest)
    | .ok code =>
      let (done, rest) := updateVectors c rest
      (done, { v with code } :: rest)

/-- The set with the present code in its vectors, up to the first that cannot be encoded. -/
def update (c : Catalog) (g : Golden) : Except Fault Unit × Golden :=
  match g.vectors? with
  | none => (.ok (), g)
  | some vs =>
    let (done, vs) := updateVectors c vs
    (done, ⟨some vs⟩)

end Golden

end LaneAsm
