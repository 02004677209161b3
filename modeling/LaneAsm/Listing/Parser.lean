import LaneAsm.Listing.Mnemonic
import LaneAsm.Listing.Operand
import LaneAsm.Text.Utf8

/-!
Listings: programs as text, one instruction for each line, with labels in front of it and comments
behind it. `Listing.parse` reads a listing.
-/
namespace LaneAsm

/-- One line of a listing with an instruction on it. The condition and the target are those of a
jump, and rest at their first values elsewhere. -/
structure Line where
  /-- The number of the line, counted from one. -/
  number : Nat
  /-- The labels bound just before the instruction. -/
  labels : List RawText
  mnemonic : Mnemonic
  args : List Operand
  mask : MaskCond
  cond : Cond
  target : RawText
deriving Repr, DecidableEq, Inhabited

/-- A listing: its instructions, and the labels after the last of them. -/
structure Listing where
  lines : List Line
  tail : List RawText
deriving Repr, DecidableEq, Inhabited

namespace Listing

open Text

/-- A line without its comment and without white space at its ends. -/
def clean (s : RawText) : RawText :=
  RawText.trim (before [.char '/', .char '/'] (before [.char ';'] (before [.char '#'] s)))

/-- Splits at the commas that stand outside brackets and parentheses; `depth` counts those open,
and `part` holds what was read since the last comma, backwards. -/
def splitCommas : (depth : Int) → (part : RawText) → RawText → List RawText
  | _, part, [] => [part.reverse]
  | depth, part, c :: r =>
    if c = .char ',' ∧ depth = 0 then part.reverse :: splitCommas depth [] r
    else if c = .char '[' ∨ c = .char '(' then splitCommas (depth + 1) (c :: part) r
    else if c = .char ']' ∨ c = .char ')' then splitCommas (depth - 1) (c :: part) r
    else splitCommas depth (c :: part) r

/-- The operand texts of a line; there are none in an empty text. -/
def splitArgs (s : RawText) : List RawText :=
  match (splitCommas 0 [] s).map RawText.trim with
  | [[]] => []
  | parts => parts

theorem length_trim_le (s : RawText) : s.trim.length ≤ s.length := by
  have h := length_dropWhile_le Symbol.isBlank s
  have h' := length_dropWhile_le Symbol.isBlank (s.dropWhile Symbol.isBlank).reverse
  simp only [RawText.trim, strip, List.length_reverse] at *
  omega

theorem length_cut?_lt {sep : Symbol} {s before after : RawText}
    (h : cut? sep s = some (before, after)) : after.length < s.length := by
  have hl := length_dropWhile_le (· ≠ sep) s
  unfold cut? at h
  split at h
  · simp at h
  · next hd =>
    rw [hd] at hl
    simp only [Option.some.injEq, Prod.mk.injEq] at h
    rw [← h.2]
    simp only [List.length_cons] at hl
    omega

/-- The labels in front of a line, each ended by a colon, and the text after them. A colon with a
blank, a bracket or a comma somewhere before it ends no label. -/
def takeLabels (s : RawText) : Except Error (List RawText × RawText) :=
  match _h : cut? (.char ':') s with
  | none => .ok ([], s)
  | some (front, rest) =>
    if front.any (· ∈ [.char ' ', .char '\t', .char '[', .char '(', .char ',']) then .ok ([], s)
    else if RawText.trim front = [] then Error.fail .emptyLabel
    else do
      let (labels, text) ← takeLabels (RawText.trim rest)
      return (RawText.trim front :: labels, text)
termination_by s.length
decreasing_by
  have := length_cut?_lt _h
  have := length_trim_le rest
  omega

/-- Reads operand `i` of `n`; the shape and the place tell its kind. -/
def parseArg (shape : Shape) (i n : Nat) (text : RawText) : Except Error Operand :=
  let last := i + 1 == n
  if (shape == .st && i == 0) || ((shape == .ld || shape == .ld3) && last) then
    (parseMem text).map .mem
  else if (shape == .ri || shape == .ri3) && last then (parseImm text).map .imm
  else (parseReg text).map .reg

/-- Reads operands in order. -/
def parseArgs (shape : Shape) (n : Nat) : (i : Nat) → List RawText → Except Error (List Operand)
  | _, [] => .ok []
  | i, text :: texts => do
    let arg ← parseArg shape i n text
    let args ← parseArgs shape n (i + 1) texts
    return arg :: args

/-- The upper case of a letter, as far as condition names need it. -/
def upper (s : List Char) : List Char := s.map Char.toUpper

/-- Reads the instruction of a line. The condition and the target of a jump stand after its other
operands; a compare and jump whose shape has a single operand reaches for a target that is not
there. -/
def parseInstr (text : RawText) : Except Fault Line := do
  let (name, rest) := (cut? (.char ' ') text).getD (text, [])
  let m ← Fault.lift (Mnemonic.parse (RawText.trim name).chars)
  let args := splitArgs (RawText.trim rest)
  let line : Line := ⟨0, [], m, [], .none, .eq, []⟩
  let jumps := m.verb == .cmj || m.verb == .op .mkj
  let want := m.shape.arity + if jumps then 2 else 0
  if args.length ≠ want then
    Fault.fail (.arity m.text want args.length)
  match m.verb with
  | .jmp => return { line with target := args.headD [] }
  | .op .mkj =>
    let mask : RawText := args[1]?.getD []
    let mask ← match String.ofList (upper mask.chars) with
      | "NONE" => pure MaskCond.none
      | "FULL" => pure MaskCond.full
      | _ => Fault.lift (malformed mask)
    let args' ← Fault.lift (parseArgs m.shape 1 0 (args.take 1))
    return { line with mask, target := args[2]?.getD [], args := args' }
  | .cmj =>
    let cond : RawText := args[2]?.getD []
    let some c := Cond.ofText? cond.text | Fault.lift (malformed cond)
    let some target := args[3]? | throw .trap
    let args' ← Fault.lift (parseArgs m.shape 2 0 (args.take 2))
    return { line with cond := c, target, args := args' }
  | .op _ =>
    return { line with args := ← Fault.lift (parseArgs m.shape args.length 0 args) }

/-- The longest line that can be read, in bytes. -/
def lineLimit : Nat := 65536

/-- Reads lines from line number `n` on, with labels pending from the lines before. -/
def parseLines : (n : Nat) → (pending : List RawText) → List RawText →
    Except Fault (List Line × List RawText)
  | _, pending, [] => .ok ([], pending)
  | n, pending, l :: ls => do
    if lineLimit ≤ l.byteLength then
      Fault.fail (.plain "bufio.Scanner: token too long")
    let (labels, text) ← (Fault.lift (takeLabels (clean (dropFinal (.char '\r') l)))).mapError
      (·.within (.line n))
    let pending := pending ++ labels
    if text = [] then parseLines (n + 1) pending ls
    else
      let line ← (parseInstr text).mapError (·.within (.line n))
      let (lines, tail) ← parseLines (n + 1) [] ls
      return ({ line with number := n, labels := pending } :: lines, tail)

/-- What reading does with a line whose labels are known. -/
theorem parseLines_of_takeLabels {l text : RawText} {labels : List RawText}
    (short : ¬ lineLimit ≤ l.byteLength)
    (taken : takeLabels (clean (dropFinal (.char '\r') l)) = .ok (labels, text)) (n : Nat)
    (pending : List RawText) (ls : List RawText) :
    parseLines n pending (l :: ls)
      = if text = [] then parseLines (n + 1) (pending ++ labels) ls
        else (parseInstr text).mapError (·.within (.line n)) >>= fun line =>
          (parseLines (n + 1) [] ls).map fun r =>
            ({ line with number := n, labels := pending ++ labels } :: r.1, r.2) := by
  rw [parseLines, if_neg short, taken]
  rfl

/-- Reads a listing. -/
def parse (src : RawText) : Except Fault Listing := do
  let (lines, tail) ← parseLines 1 [] (Text.lines (.char '\n') src)
  return ⟨lines, tail⟩

end Listing

end LaneAsm
