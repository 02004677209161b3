import LaneAsm.Text.Blank
import LaneAsm.Text.Split

/-!
Reading the code and the name of an error back from its text. The code stands before the first
bar, the name between the bar and the next colon.
-/
namespace LaneAsm.ErrorText

open Text

/-- The name in the text of an error; a text without a bar or a colon is its own name. -/
def name (text : Option String) : String :=
  match text with
  | none => "No Error"
  | some text =>
    let s := text.toList
    match cut? '|' s with
    | some (_, rest) =>
      if s.contains ':' then
        String.ofList (trim (rest.takeWhile (· ≠ ':')))
      else text
    | none => text

/-- The code in the text of an error; a text without a bar has none. -/
def code (text : Option String) : String :=
  match text.bind (cut? '|' ·.toList) with
  | some (code, _) => String.ofList (trim code)
  | none => ""

/-- The code and the name, joined by an underscore, if both are there. -/
def codeWithName (text : Option String) : String :=
  if code text = "" ∨ name text = "" then "" else code text ++ "_" ++ name text

end LaneAsm.ErrorText
