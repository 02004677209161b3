import LaneAsm.Listing.Parser

/-!
The text of a listing: one line for each instruction, and a last line for the labels after them all.
-/
namespace LaneAsm

/-- A memory reference as listings write it. -/
def Mem.listed (m : Mem) : String :=
  match m.index with
  | some index => "[" ++ m.base.text ++ " + " ++ index.text ++ " + " ++ m.disp.text ++ "]"
  | none => "[" ++ m.base.text ++ " + " ++ m.disp.text ++ "]"

/-- An operand as listings write it. -/
def Operand.listed : Operand → String
  | .reg r => r.text
  | .mem m => m.listed
  | .imm i => i.text

/-- Labels in front of an instruction, each ended by a colon. -/
def labelsText (labels : List RawText) : RawText := labels.flatMap (· ++ [.char ':'])

namespace Line

/-- The texts of all operands; the condition and the target of a jump stand after the others. -/
def operandTexts (l : Line) : List RawText :=
  let args := l.args.map fun o => RawText.ofString o.listed
  match l.mnemonic.verb with
  | .jmp => [l.target]
  | .op .mkj => args ++ [.ofString l.mask.text, l.target]
  | .cmj => args ++ [.ofString l.cond.text, l.target]
  | .op _ => args

/-- The text of a line, without a newline. -/
def render (l : Line) : RawText :=
  labelsText l.labels ++ RawText.ofString (l.mnemonic.text ++ " ")
    ++ (RawText.ofString ", ").intercalate l.operandTexts

end Line

/-- The text of a listing. Lines are numbered anew when it is read. -/
def Listing.render (l : Listing) : RawText :=
  l.lines.flatMap (·.render ++ [.char '\n']) ++ labelsText l.tail

end LaneAsm
