import LaneAsm.Error.Text
import LaneAsm.Instr
import LaneAsm.Machine.Step
import LaneAsm.Proofs.Text
import Mathlib.Data.List.TakeWhile

/-!
Reading the code and the name of an error back from its text. The name stands between the first bar
and the next colon, where no text around the error reaches (`ErrorText.name_wrapped`). The code is all
that stands before the bar, so text in front of the error becomes part of it unless it is white space
(`ErrorText.code_wrapped`). The places that errors are reported from are such text
(`wrapped_errors_named`).
-/
namespace LaneAsm

/-! ## Texts without a bar -/

/-- A text without a bar, which would be taken for the one behind the code. -/
def BarFree (s : String) : Prop := '|' ∉ s.toList

instance (s : String) : Decidable (BarFree s) := inferInstanceAs (Decidable (_ ∉ _))

theorem barFree_append {s t : String} : BarFree (s ++ t) ↔ BarFree s ∧ BarFree t := by
  simp only [BarFree, String.toList_append, List.mem_append, not_or]

theorem barFree_toString_nat (n : Nat) : BarFree (toString n) := by
  intro member
  rw [Nat.toString_eq_repr, Nat.toList_repr] at member
  exact absurd (Nat.isDigit_of_mem_toDigits (by decide) (by decide) member) (by decide)

theorem barFree_toString_int (n : Int) : BarFree (toString n) := by
  rw [Int.toString_eq_repr, Int.repr_eq_if]
  split
  · exact barFree_toString_nat _
  · exact barFree_append.2 ⟨by decide, barFree_toString_nat _⟩

theorem barFree_hex (n : Int) : BarFree (Text.hex n) := by
  have digits : BarFree (String.ofList (Text.hexDigits n.natAbs)) := by
    intro member
    rw [String.toList_ofList] at member
    obtain ⟨d, small, same⟩ := Text.mem_hexDigits member
    revert d
    decide
  rw [Text.hex]
  split
  · exact barFree_append.2 ⟨by decide, digits⟩
  · exact barFree_append.2 ⟨by decide, digits⟩

theorem Reg.barFree_text (r : Reg) : BarFree r.text := by
  have named : ∀ name ∈ baseNames, BarFree name := by decide +kernel
  have lettered : ∀ n < 16, BarFree (String.singleton (Char.ofNat (55 + n))) := by decide +kernel
  unfold text
  split
  · split
    · next found _ => exact named _ (List.mem_of_getElem? found)
    · exact barFree_append.2 ⟨by decide, barFree_toString_int _⟩
  · split
    · exact barFree_append.2 ⟨by decide, barFree_toString_int _⟩
    · split
      · exact barFree_append.2 ⟨by decide, lettered _ (by omega)⟩
      · exact barFree_append.2 ⟨by decide, barFree_toString_int _⟩

theorem DispClass.barFree_text (c : DispClass) : BarFree c.text := by
  cases c with
  | other code =>
    exact barFree_append.2 ⟨barFree_append.2 ⟨by decide, barFree_toString_nat _⟩, by decide⟩
  | _ => decide

theorem Mem.barFree_text (m : Mem) : BarFree m.text := by
  have disp : BarFree m.disp.text := by
    simp only [Disp.text, barFree_append]
    exact ⟨⟨⟨m.disp.kind.barFree_text, by decide⟩, barFree_hex _⟩, by decide⟩
  unfold text
  split
  · next index _ =>
    simp only [barFree_append, m.base.barFree_text, index.barFree_text, disp, and_true]
    decide
  · simp only [barFree_append, m.base.barFree_text, disp, and_true]
    decide

theorem Op.barFree_name (op : Op) : BarFree op.name := by
  cases op <;> simp only [name] <;> decide

theorem Op.barFree_on (op : Op) (e : Elem) : BarFree (op.on e) := by
  have kind : BarFree e.kind.letter := by cases e.kind <;> decide
  simp only [Op.on, Elem.text, barFree_append]
  exact ⟨⟨op.barFree_name, by decide⟩, kind, barFree_toString_nat _⟩

theorem Instr.barFree_name {L : Type} (i : Instr L) : BarFree i.name := by
  cases i with
  | logic op | unformed op => exact op.barFree_name
  | arith op e | shift op e | shiftEach op e | compare op e => exact op.barFree_on e
  | arithBase op | shiftBase op => exact barFree_append.2 ⟨op.barFree_name, by decide⟩
  | _ => simp only [name]; decide

theorem Primitive.barFree_stepName (x : Primitive) : BarFree x.stepName := by
  cases x with
  | logic op | arith op | shift op | shiftEach op | compare op => exact op.barFree_name
  | arithBase op | shiftBase op => exact barFree_append.2 ⟨op.barFree_name, by decide⟩
  | move dst | moveBase dst => cases dst <;> simp only [stepName] <;> decide
  | _ => simp only [stepName]; decide

/-! ## Places -/

/-- The places that reading and assembling a listing, moving an operand and running a program report
errors from. They hold no text from outside. -/
inductive Place.Internal : Place → Prop where
  | instruction {L : Type} (number : Nat) (i : Instr L) : Internal (.instruction number i.name)
  | line (number : Nat) : Internal (.line number)
  | moved (m : Mem) (delta : Int) : Internal (.moved m delta)
  | step (number : Nat) (x : Primitive) : Internal (.step number x.stepName)

theorem Place.Internal.barFree_text {p : Place} (inside : p.Internal) : BarFree p.text := by
  cases inside with
  | instruction number i =>
    simp only [Place.text, barFree_append]
    exact ⟨⟨⟨by decide, barFree_toString_nat _⟩, by decide⟩, i.barFree_name⟩
  | line number => exact barFree_append.2 ⟨by decide, barFree_toString_nat _⟩
  | moved m delta =>
    simp only [Place.text, barFree_append]
    exact ⟨⟨m.barFree_text, by decide⟩, barFree_toString_int _⟩
  | step number x =>
    simp only [Place.text, barFree_append]
    exact ⟨⟨⟨by decide, barFree_toString_nat _⟩, by decide⟩, x.barFree_stepName⟩

/-- What the places of an error put in front of its cause. -/
def Error.front (e : Error) : String := e.places.foldr (fun p rest => p.text ++ ": " ++ rest) ""

theorem Error.message_eq_front (e : Error) : e.message = e.front ++ e.cause.message := by
  obtain ⟨places, cause⟩ := e
  simp only [message, front]
  induction places with
  | nil => rfl
  | cons p places ih =>
    rw [List.foldr_cons, List.foldr_cons, ih]
    exact String.append_assoc.symm

theorem Error.barFree_front {e : Error} (inside : ∀ p ∈ e.places, p.Internal) : BarFree e.front := by
  obtain ⟨places, cause⟩ := e
  simp only [front]
  induction places with
  | nil => decide
  | cons p places ih =>
    have later := ih fun q member => inside q (List.mem_cons_of_mem p member)
    have here := (inside p List.mem_cons_self).barFree_text
    simp only [List.foldr_cons, barFree_append]
    exact ⟨⟨here, by decide⟩, later⟩

/-- The colon behind a place is no white space. -/
theorem Error.front_blank_iff (e : Error) :
    (∀ c ∈ e.front.toList, Text.isBlank c = true) ↔ e.places = [] := by
  obtain ⟨places, cause⟩ := e
  simp only [front]
  cases places with
  | nil => simp
  | cons p places =>
    simp only [List.foldr_cons, String.toList_append, reduceCtorEq, iff_false]
    intro blank
    have colon : Text.isBlank ':' = true := blank ':' (by simp)
    exact absurd colon (by decide)

/-! ## Codes and names -/

namespace ErrorKind

theorem barFree_code (k : ErrorKind) : BarFree k.code := by
  cases k <;> decide

theorem inked_code (k : ErrorKind) : Text.Inked Text.isBlank k.code.toList := by
  have all : k.code.toList.all (!Text.isBlank ·) = true := by cases k <;> decide
  exact .of_forall (by cases k <;> decide) (by simpa using all)

theorem inked_name (k : ErrorKind) : Text.Inked Text.isBlank k.name.toList := by
  have all : k.name.toList.all (!Text.isBlank ·) = true := by cases k <;> decide
  exact .of_forall (by cases k <;> decide) (by simpa using all)

theorem colon_not_mem_name (k : ErrorKind) : ':' ∉ k.name.toList := by
  cases k <;> decide

/-- The two marks in the text of a kind, with text on both sides of it. -/
theorem toList_wrapped (k : ErrorKind) (front back : String) :
    (front ++ k.text ++ back).toList = (front.toList ++ k.code.toList) ++
      '|' :: (k.name.toList ++ ':' :: (' ' :: k.summary.toList ++ back.toList)) := by
  simp [text]

end ErrorKind

namespace ErrorText

variable (k : ErrorKind) {front : String} (back : String)

theorem cut_wrapped (free : BarFree front) :
    Text.cut? '|' (front ++ k.text ++ back).toList =
      some (front.toList ++ k.code.toList,
        k.name.toList ++ ':' :: (' ' :: k.summary.toList ++ back.toList)) := by
  have free' : '|' ∉ front.toList ++ k.code.toList := by
    rw [List.mem_append, not_or]
    exact ⟨free, k.barFree_code⟩
  rw [k.toList_wrapped, Text.cut?_append free']

theorem name_wrapped (free : BarFree front) : name (some (front ++ k.text ++ back)) = k.name := by
  have colon : (front ++ k.text ++ back).toList.contains ':' = true := by
    simp [k.toList_wrapped]
  simp only [name, cut_wrapped k back free, colon, if_true]
  rw [Text.takeWhile_eq_left k.colon_not_mem_name, Text.trim, k.inked_name.strip_eq_self,
    String.ofList_toList]

theorem code_wrapped (free : BarFree front) :
    code (some (front ++ k.text ++ back)) =
      String.ofList (front.toList.dropWhile Text.isBlank) ++ k.code := by
  simp only [code, Option.bind_some, cut_wrapped k back free]
  rw [Text.trim, k.inked_code.strip_append, String.ofList_append, String.ofList_toList]

theorem codeWithName_wrapped (free : BarFree front) :
    codeWithName (some (front ++ k.text ++ back)) =
      String.ofList (front.toList.dropWhile Text.isBlank) ++ k.code ++ "_" ++ k.name := by
  have code_ne : String.ofList (front.toList.dropWhile Text.isBlank) ++ k.code ≠ "" := by
    intro empty
    have parts := congrArg String.toList empty
    rw [String.toList_append, String.toList_empty, List.append_eq_nil_iff] at parts
    exact k.inked_code.ne_nil parts.2
  have name_ne : k.name ≠ "" := by
    intro empty
    exact k.inked_name.ne_nil (congrArg String.toList empty)
  simp only [codeWithName, code_wrapped k back free, name_wrapped k back free, code_ne, name_ne,
    or_self, if_false]

/-- A code with text in front of it is the code alone only if the text is white space. -/
theorem front_append_eq_iff (s t : String) :
    String.ofList (s.toList.dropWhile Text.isBlank) ++ t = t ↔
      ∀ c ∈ s.toList, Text.isBlank c = true := by
  rw [← String.toList_inj, String.toList_append, String.toList_ofList, List.append_left_eq_self,
    List.dropWhile_eq_nil_iff]

end ErrorText

/-- The name of an error can be read from its text whatever stands around it, but its code only if
nothing but white space stands in front. The text in front comes back as part of the code. So every
error that is reported from some place has its name, and the code of its kind only if it is reported
from nowhere. -/
theorem wrapped_errors_named (k : ErrorKind) :
    (∀ front back : String, '|' ∉ front.toList →
      let text := some (front ++ k.text ++ back)
      let code := String.ofList (front.toList.dropWhile Text.isBlank) ++ k.code
      ErrorText.name text = k.name ∧ ErrorText.code text = code ∧
      ErrorText.codeWithName text = code ++ "_" ++ k.name ∧
      (code = k.code ↔ ∀ c ∈ front.toList, Text.isBlank c = true) ∧
      (code ++ "_" ++ k.name = k.code ++ "_" ++ k.name ↔
        ∀ c ∈ front.toList, Text.isBlank c = true)) ∧
    ∀ e : Error, e.kind? = some k → (∀ p ∈ e.places, p.Internal) →
      ErrorText.name (some e.message) = k.name ∧
      (ErrorText.code (some e.message) = k.code ↔ e.places = []) ∧
      (ErrorText.codeWithName (some e.message) = k.code ++ "_" ++ k.name ↔ e.places = []) := by
  constructor
  · intro front back free text code
    have blank := ErrorText.front_append_eq_iff front k.code
    refine ⟨ErrorText.name_wrapped k back free, ErrorText.code_wrapped k back free,
      ErrorText.codeWithName_wrapped k back free, blank, ?_⟩
    rw [String.append_left_inj, String.append_left_inj]
    exact blank
  · intro e kind inside
    have free := Error.barFree_front inside
    have blank := (ErrorText.front_append_eq_iff e.front k.code).trans e.front_blank_iff
    have message : e.message = e.front ++ k.text ++ (": " ++ e.cause.detail) := by
      rw [e.message_eq_front, Cause.message, show e.cause.kind? = some k from kind]
      simp only [String.append_assoc]
    rw [message, ErrorText.name_wrapped k _ free, ErrorText.code_wrapped k _ free,
      ErrorText.codeWithName_wrapped k _ free, String.append_left_inj, String.append_left_inj]
    exact ⟨rfl, blank, blank⟩

/-- A sum names a register that is not there, on line three of a listing. -/
theorem wrapped_errors_named_report :
    let front := "line 3: #1 add.u16: "
    let back := ": X20 (usable 0..13)"
    let sum : Instr String := .arith .add Elem.u16 (.xmm 1) (.xmm 1) (.reg (.xmm 20))
    let e : Error := ⟨[.line 3, .instruction 1 sum.name], .registerUnusable (.xmm 20) 14⟩
    '|' ∉ front.toList ∧ e.kind? = some .registerRange ∧ (∀ p ∈ e.places, p.Internal) ∧
      e.message = front ++ ErrorKind.registerRange.text ++ back ∧
      ErrorText.code (some (front ++ ErrorKind.registerRange.text ++ back)) = front ++ "E3" ∧
      ErrorText.name (some e.message) = "RegisterRange" ∧
      ErrorText.code (some e.message) ≠ "E3" := by
  intro front back sum e
  have free : '|' ∉ front.toList := by decide +kernel
  have inside : ∀ p ∈ e.places, p.Internal := by
    intro p member
    simp only [e, List.mem_cons, List.not_mem_nil, or_false] at member
    rcases member with rfl | rfl
    · exact .line 3
    · exact .instruction 1 sum
  obtain ⟨texts, errors⟩ := wrapped_errors_named .registerRange
  obtain ⟨-, code, -⟩ := texts front back free
  obtain ⟨name, alone, -⟩ := errors e rfl inside
  refine ⟨free, rfl, inside, by decide +kernel, code.trans (by decide +kernel), name, fun same => ?_⟩
  exact List.cons_ne_nil _ _ (alone.1 same)

/-- The code of an error is lost behind the places it was reported from. -/
theorem wrapped_code_misread :
    let text := "line 3: #1 add.u16: " ++ ErrorKind.registerRange.text ++ ": X20 (usable 0..13)"
    '|' ∉ "line 3: #1 add.u16: ".toList ∧
      ErrorText.code (some text) = "line 3: #1 add.u16: E3" ∧
      ErrorText.code (some text) ≠ ErrorKind.registerRange.code ∧
      ErrorText.codeWithName (some text) = "line 3: #1 add.u16: E3_RegisterRange" := by
  decide +kernel

end LaneAsm
