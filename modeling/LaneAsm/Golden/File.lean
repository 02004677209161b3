import LaneAsm.Golden.Basic
import LaneAsm.Json.Parser

/-!
Golden vectors as JSON files. Keys match without regard to case, unknown keys are ignored, `null`
leaves a field as it is, and a later member of a name goes on from the value of an earlier one.
-/
namespace LaneAsm

/-- A value of the wrong kind: what was found, the member it was found in, and the type wanted. -/
structure FieldError where
  found : String
  owner : String
  member : String
  wanted : String
deriving Repr, DecidableEq

def FieldError.message (e : FieldError) : String :=
  "json: cannot unmarshal " ++ e.found ++ " into Go "
    ++ (if e.owner = "" then "value" else "struct field " ++ e.owner ++ "." ++ e.member)
    ++ " of type " ++ e.wanted

/-- A letter without its case; two letters outside ASCII are also written as `k` and `s`. -/
def foldKeyChar (c : Char) : Char :=
  if c.toNat = 0x212A then 'k' else if c.toNat = 0x17F then 's' else c.toLower

/-- Whether a key of a document names a field. -/
def namesField (field key : String) : Bool := key.toList.map foldKeyChar == field.toList

/-- The text of a member of a vector. -/
def readTextField (member old : String) : Json → Except FieldError String
  | .str s => .ok s
  | .null => .ok old
  | v => .error ⟨v.kindName, "Vector", "vectors." ++ member, "string"⟩

namespace GoldenVector

/-- A vector after one member of an object. -/
def setMember (v : GoldenVector) (member : String × Json) : Except FieldError GoldenVector := do
  let (key, value) := member
  if namesField "name" key then return { v with name := ← readTextField "name" v.name value }
  else if namesField "profile" key then
    return { v with profile := ← readTextField "profile" v.profile value }
  else if namesField "source" key then
    return { v with source := ← readTextField "source" v.source value }
  else if namesField "code" key then return { v with code := ← readTextField "code" v.code value }
  else return v

/-- A vector after the members of an object. -/
def ofJson (old : GoldenVector) : Json → Except FieldError GoldenVector
  | .obj members => members.foldlM setMember old
  | .null => .ok old
  | v => .error ⟨v.kindName, "File", "vectors", "golden.Vector"⟩

def toJson (v : GoldenVector) : Json :=
  .obj [("name", .str v.name), ("profile", .str v.profile), ("source", .str v.source),
    ("code", .str v.code)]

/-- The vectors of an array; each goes on from the one in `old` at its place. -/
def listOfJson : (old : List GoldenVector) → List Json → Except FieldError (List GoldenVector)
  | _, [] => .ok []
  | old, v :: rest => do
    let first ← ofJson (old.headD ⟨"", "", "", ""⟩) v
    return first :: (← listOfJson old.tail rest)

end GoldenVector

/-- A set while its document is read, and the last vector read for each place of its list. A list
with vectors leaves those at later places where they are; an empty or missing one forgets all. -/
structure GoldenDraft where
  golden : Golden
  places : List GoldenVector
deriving Repr, DecidableEq

/-- A draft after one member of an object. -/
def GoldenDraft.setMember (d : GoldenDraft) (member : String × Json) :
    Except FieldError GoldenDraft :=
  let (key, value) := member
  if namesField "vectors" key then
    match value with
    | .arr [] => .ok ⟨⟨some []⟩, []⟩
    | .arr items => do
      let vectors ← GoldenVector.listOfJson d.places items
      return ⟨⟨some vectors⟩, vectors ++ d.places.drop vectors.length⟩
    | .null => .ok ⟨⟨none⟩, []⟩
    | v => .error ⟨v.kindName, "File", "vectors", "[]golden.Vector"⟩
  else .ok d

namespace Golden

/-- The set that a document holds. -/
def ofJson : Json → Except FieldError Golden
  | .obj members => do return (← members.foldlM GoldenDraft.setMember ⟨⟨none⟩, []⟩).golden
  | .null => .ok ⟨none⟩
  | v => .error ⟨v.kindName, "", "", "golden.File"⟩

def toJson (g : Golden) : Json :=
  .obj [("vectors", match g.vectors? with
    | some vs => .arr (vs.map GoldenVector.toJson)
    | none => .null)]

/-- The set that the text of a file holds; errors name the file. -/
def ofText (path : String) (s : RawText) : Except Error Golden :=
  let refuse (text : String) : Except Error Golden :=
    .error ((Error.plain text).within (.named path))
  match Json.parse s with
  | .error e => refuse e.message
  | .ok v =>
    match ofJson v with
    | .error e => refuse e.message
    | .ok g => .ok g

/-- The text of the file of a set. -/
def render (g : Golden) : String := g.toJson.render ++ "\n"

end Golden

end LaneAsm
