import LaneAsm.Encoder
import LaneAsm.Proofs.Machine
import LaneAsm.Proofs.Text

/-!
Listings as programs. A listing stands for the instructions of its lines with its labels bound between
them (`Listing.instrs`), and assembling it is issuing these one after another (`encode_eq_ok`). A text
behind another, on a line of its own, stands for the instructions of both (`parse_append`): labels that
wait for an instruction at the end of the first are bound in front of the second.
-/
namespace LaneAsm

open Text

/-! ## Issuing -/

namespace Assembly

variable {σ : Type}

/-- Issues instructions over label names in order, as long as none of them fails. -/
def issueAll? (b : Backend σ) : Assembly σ → List (Instr RawText) → Option (Assembly σ)
  | a, [] => some a
  | a, i :: is =>
    match a.issue b i with
    | (.ok (), a) => if a.assembler.error? = none then issueAll? b a is else none
    | (.error _, _) => none

variable {b : Backend σ} {a a' : Assembly σ}

theorem issueAll?_cons {i : Instr RawText} {is : List (Instr RawText)} :
    a.issueAll? b (i :: is) = some a' ↔ ∃ a₁, a.issue b i = (.ok (), a₁) ∧
      a₁.assembler.error? = none ∧ a₁.issueAll? b is = some a' := by
  rw [issueAll?]
  rcases a.issue b i with ⟨_ | ⟨⟩, a₁⟩
  · simp
  · by_cases clear : a₁.assembler.error? = none <;> simp [clear]

theorem issueAll?_append {is js : List (Instr RawText)} :
    a.issueAll? b (is ++ js) = some a' ↔
      ∃ a₁, a.issueAll? b is = some a₁ ∧ a₁.issueAll? b js = some a' := by
  induction is generalizing a with
  | nil => simp [issueAll?]
  | cons i is ih =>
    simp only [List.cons_append, issueAll?_cons, ih]
    constructor
    · rintro ⟨a₁, issued, clear, a₂, first, second⟩
      exact ⟨a₂, ⟨a₁, issued, clear, first⟩, second⟩
    · rintro ⟨a₂, ⟨a₁, issued, clear, first⟩, second⟩
      exact ⟨a₁, issued, clear, a₂, first, second⟩

/-- Instructions that do not fail leave no error. -/
theorem clear_of_issueAll? {is : List (Instr RawText)} (clear : a.assembler.error? = none)
    (issued : a.issueAll? b is = some a') : a'.assembler.error? = none := by
  induction is generalizing a with
  | nil =>
    obtain rfl := Option.some.inj issued
    exact clear
  | cons i is ih =>
    obtain ⟨a₁, -, clear₁, rest⟩ := issueAll?_cons.1 issued
    exact ih clear₁ rest

/-- The label of an instruction, made if it is new. -/
def refer (b : Backend σ) (a : Assembly σ) (i : Instr RawText) : LabelRef × Assembly σ :=
  match i.label? with
  | some name => (some (a.label b name).1, (a.label b name).2)
  | none => (none, a)

theorem issue_eq (b : Backend σ) (a : Assembly σ) (i : Instr RawText) : a.issue b i =
    (((a.refer b i).2.assembler.issue b (i.mapLabel fun _ => (a.refer b i).1)).1,
      ⟨((a.refer b i).2.assembler.issue b (i.mapLabel fun _ => (a.refer b i).1)).2,
        (a.refer b i).2.labels⟩) := by
  unfold issue refer
  cases i.label? <;> rfl

theorem error?_refer (b : Backend σ) (a : Assembly σ) (i : Instr RawText) :
    (a.refer b i).2.assembler.error? = a.assembler.error? := by
  unfold refer
  cases i.label? with
  | none => rfl
  | some name =>
    show (a.label b name).2.assembler.error? = _
    unfold label
    cases a.labels.lookup name <;> rfl

/-- An error is kept. -/
theorem clear_of_issue {i : Instr RawText} {outcome : Except Fault Unit}
    (issued : a.issue b i = (outcome, a')) (clear : a'.assembler.error? = none) :
    a.assembler.error? = none := by
  have last : (a.issue b i).2 = a' := congrArg Prod.snd issued
  rw [← last, issue_eq] at clear
  rw [← error?_refer b a i]
  cases kept : (a.refer b i).2.assembler.error? with
  | none => rfl
  | some e =>
    simp only [Assembler.issue, kept] at clear
    cases clear

theorem clear_of_bindAll {names : List RawText}
    (clear : (a.bindAll b names).2.assembler.error? = none) : a.assembler.error? = none := by
  induction names generalizing a with
  | nil => exact clear
  | cons name names ih =>
    rw [bindAll] at clear
    split at clear
    · next issued => exact clear_of_issue issued (ih clear)
    · next issued => exact clear_of_issue issued clear

theorem bindAll_eq_ok {names : List RawText} (clear : a'.assembler.error? = none) :
    a.bindAll b names = (.ok (), a') ↔ a.issueAll? b (names.map .bind) = some a' := by
  induction names generalizing a with
  | nil => simp [bindAll, issueAll?]
  | cons name names ih =>
    rw [List.map_cons, issueAll?_cons, bindAll]
    rcases a.issue b (.bind name) with ⟨_ | ⟨⟩, a₁⟩
    · simp
    · constructor
      · intro bound
        have bound : a₁.bindAll b names = (.ok (), a') := bound
        have later : (a₁.bindAll b names).2.assembler.error? = none := by
          rw [bound]
          exact clear
        exact ⟨a₁, rfl, clear_of_bindAll later, ih.1 bound⟩
      · rintro ⟨a₂, same, -, bound⟩
        obtain ⟨-, rfl⟩ := Prod.mk.inj same
        exact ih.2 bound

theorem status_eq_ok : a.status = .ok () ↔ a.assembler.error? = none := by
  unfold status
  cases a.assembler.error? <;> simp

end Assembly

/-! ## Listings -/

/-- The instructions of lines, with the labels of each bound in front of it; registers have `bits`. -/
def Line.instrs (bits : Nat) : List Line → Except Fault (List (Instr RawText))
  | [] => .ok []
  | l :: ls => do
    let i ← l.instr bits
    let is ← instrs bits ls
    return l.labels.map .bind ++ i :: is

/-- The instructions that a listing stands for. -/
def Listing.instrs (bits : Nat) (l : Listing) : Except Fault (List (Instr RawText)) :=
  (Line.instrs bits l.lines).map (· ++ l.tail.map .bind)

theorem Listing.instrs_eq_ok {bits : Nat} {l : Listing} {is : List (Instr RawText)} :
    l.instrs bits = .ok is ↔
      ∃ is', Line.instrs bits l.lines = .ok is' ∧ is = is' ++ l.tail.map .bind := by
  unfold Listing.instrs
  cases Line.instrs bits l.lines <;> simp [Except.map, eq_comm]

section
variable {σ : Type} {b : Backend σ} {a a' : Assembly σ}

theorem Assembly.line_eq_ok {l : Line} :
    a.line b l = (.ok (), a') ↔ a'.assembler.error? = none ∧ ∃ i, l.instr b.config.baseBits = .ok i ∧
      a.issueAll? b (l.labels.map .bind ++ [i]) = some a' := by
  constructor
  · intro done
    unfold Assembly.line at done
    split at done
    · cases done
    next a₁ bound =>
    split at done
    · cases done
    next i found =>
    split at done
    · cases done
    next a₂ issued =>
    obtain ⟨status, rfl⟩ := Prod.mk.inj done
    have clear₂ := Assembly.status_eq_ok.1 status
    have clear₁ := Assembly.clear_of_issue issued clear₂
    refine ⟨clear₂, i, found, Assembly.issueAll?_append.2 ⟨a₁, (Assembly.bindAll_eq_ok clear₁).1 bound, ?_⟩⟩
    exact Assembly.issueAll?_cons.2 ⟨a₂, issued, clear₂, rfl⟩
  · rintro ⟨-, i, found, done⟩
    obtain ⟨a₁, bound, last⟩ := Assembly.issueAll?_append.1 done
    obtain ⟨a₂, issued, clear₂, rest⟩ := Assembly.issueAll?_cons.1 last
    obtain rfl := Option.some.inj rest
    have clear₁ := Assembly.clear_of_issue issued clear₂
    have bound := (Assembly.bindAll_eq_ok clear₁).2 bound
    simp only [Assembly.line, bound, found, issued, Assembly.status_eq_ok.2 clear₂]

theorem Line.instrs_cons {bits : Nat} {l : Line} {ls : List Line} {is : List (Instr RawText)} :
    Line.instrs bits (l :: ls) = .ok is ↔ ∃ i is', l.instr bits = .ok i ∧
      Line.instrs bits ls = .ok is' ∧ is = l.labels.map .bind ++ i :: is' := by
  simp only [Line.instrs, bind_eq_ok, pure, Except.pure, Except.ok.injEq]
  constructor
  · rintro ⟨i, found, is', rest, rfl⟩
    exact ⟨i, is', found, rest, rfl⟩
  · rintro ⟨i, is', found, rest, rfl⟩
    exact ⟨i, found, is', rest, rfl⟩

theorem Line.instrs_append {bits : Nat} {ls ms : List Line} {is js : List (Instr RawText)}
    (first : Line.instrs bits ls = .ok is) (second : Line.instrs bits ms = .ok js) :
    Line.instrs bits (ls ++ ms) = .ok (is ++ js) := by
  induction ls generalizing is with
  | nil =>
    obtain rfl := Except.ok.inj first
    exact second
  | cons l ls ih =>
    obtain ⟨i, is, found, rest, rfl⟩ := Line.instrs_cons.1 first
    refine Line.instrs_cons.2 ⟨i, is ++ js, found, ih rest, ?_⟩
    rw [List.append_assoc, List.cons_append]

theorem Assembly.lines_eq_ok {ls : List Line} (clear : a.assembler.error? = none) :
    a.lines b ls = (.ok (), a') ↔
      ∃ is, Line.instrs b.config.baseBits ls = .ok is ∧ a.issueAll? b is = some a' := by
  induction ls generalizing a with
  | nil => simp [Assembly.lines, Line.instrs, Assembly.issueAll?]
  | cons l ls ih =>
    simp only [Line.instrs_cons]
    constructor
    · intro done
      rw [Assembly.lines] at done
      split at done
      · next a₁ first =>
        obtain ⟨clear₁, i, found, issued⟩ := Assembly.line_eq_ok.1 first
        obtain ⟨is, rest, issued'⟩ := (ih clear₁).1 done
        refine ⟨_, ⟨i, is, found, rest, rfl⟩, ?_⟩
        rw [List.append_cons]
        exact Assembly.issueAll?_append.2 ⟨a₁, issued, issued'⟩
      · cases done
    · rintro ⟨-, ⟨i, is, found, rest, rfl⟩, issued⟩
      rw [List.append_cons] at issued
      obtain ⟨a₁, first, later⟩ := Assembly.issueAll?_append.1 issued
      have clear₁ := Assembly.clear_of_issueAll? clear first
      have line := Assembly.line_eq_ok.2 ⟨clear₁, i, found, first⟩
      rw [Assembly.lines, line]
      exact (ih clear₁).2 ⟨is, rest, later⟩

/-- Assembling a listing without an error is issuing its instructions. -/
theorem Listing.assemble_eq_ok {l : Listing} {a a' : Assembler σ} (clear : a.error? = none) :
    l.assemble b a = (.ok (), a') ↔ ∃ is labels, l.instrs b.config.baseBits = .ok is ∧
      Assembly.issueAll? b ⟨a, []⟩ is = some ⟨a', labels⟩ := by
  have clear : (⟨a, []⟩ : Assembly σ).assembler.error? = none := clear
  constructor
  · intro done
    unfold Listing.assemble at done
    split at done
    · cases done
    next a₁ first =>
    split at done
    · cases done
    next a₂ bound =>
    obtain ⟨status, rfl⟩ := Prod.mk.inj done
    obtain ⟨is, found, issued⟩ := (Assembly.lines_eq_ok clear).1 first
    have bound := (Assembly.bindAll_eq_ok (Assembly.status_eq_ok.1 status)).1 bound
    exact ⟨_, a₂.labels, Listing.instrs_eq_ok.2 ⟨is, found, rfl⟩, Assembly.issueAll?_append.2 ⟨a₁, issued, bound⟩⟩
  · rintro ⟨_, labels, found, done⟩
    obtain ⟨is, read, rfl⟩ := Listing.instrs_eq_ok.1 found
    obtain ⟨a₁, first, bound⟩ := Assembly.issueAll?_append.1 done
    have clear₁ := Assembly.clear_of_issueAll? clear first
    have clear₂ := Assembly.clear_of_issueAll? clear₁ bound
    have lines := (Assembly.lines_eq_ok clear).2 ⟨is, read, first⟩
    have bound := (Assembly.bindAll_eq_ok clear₂).2 bound
    simp only [Listing.assemble, lines, bound, Assembly.status_eq_ok.2 clear₂]

end

/-- A listing is encoded by issuing its instructions and finishing what was appended. -/
theorem encode_eq_ok {cfg : Config} {src : RawText} {c : Bytes} :
    encode cfg src = .ok c ↔ ∃ b l is a, encoder? cfg = .ok b ∧ Listing.parse src = .ok l ∧
      l.instrs b.config.baseBits = .ok is ∧
      Assembly.issueAll? b ⟨.start .empty, []⟩ is = some a ∧ (b.finish a.assembler.state).1 = .ok c := by
  unfold encode Listing.encode
  constructor
  · intro done
    obtain ⟨l, read, done⟩ := bind_eq_ok.1 done
    obtain ⟨b, found, done⟩ := bind_eq_ok.1 done
    split at done
    · cases done
    next a assembled =>
    obtain ⟨is, labels, spelled, issued⟩ := (Listing.assemble_eq_ok rfl).1 assembled
    have clear : a.error? = none := Assembly.clear_of_issueAll? rfl issued
    have found : encoder? cfg = .ok b := by
      cases other : encoder? cfg with
      | ok b' =>
        rw [other] at found
        exact congrArg Except.ok (Except.ok.inj found)
      | error e =>
        rw [other] at found
        cases found
    simp only [Assembler.code, clear] at done
    exact ⟨b, l, is, _, found, read, spelled, issued, done⟩
  · rintro ⟨b, l, is, a, found, read, spelled, issued, finished⟩
    have clear := Assembly.clear_of_issueAll? rfl issued
    have assembled := (Listing.assemble_eq_ok (b := b) (a := .start .empty) rfl).2
      ⟨is, a.labels, spelled, issued⟩
    refine bind_eq_ok.2 ⟨l, read, bind_eq_ok.2 ⟨b, ?_, ?_⟩⟩
    · rw [found]
      rfl
    · simp only [assembled, Assembler.code, clear, finished]

/-! ## Texts behind each other -/

namespace Listing

/-- Reading a line takes its labels and reads its instruction if there is one. -/
theorem parseLines_cons_eq_ok {n : Nat} {pending : List RawText} {l : RawText} {ls : List RawText}
    {r : List Line × List RawText} : parseLines n pending (l :: ls) = .ok r ↔
      ¬ lineLimit ≤ l.byteLength ∧ ∃ labels text,
        takeLabels (clean (dropFinal (.char '\r') l)) = .ok (labels, text) ∧
        ((text = [] ∧ parseLines (n + 1) (pending ++ labels) ls = .ok r) ∨
          ∃ line rest, text ≠ [] ∧ parseInstr text = .ok line ∧ parseLines (n + 1) [] ls = .ok rest ∧
            r = ({ line with number := n, labels := pending ++ labels } :: rest.1, rest.2)) := by
  constructor
  · intro done
    have short : ¬ lineLimit ≤ l.byteLength := by
      intro long
      rw [parseLines, if_pos long] at done
      cases done
    cases taken : takeLabels (clean (dropFinal (.char '\r') l)) with
    | error e =>
      rw [parseLines, if_neg short, taken] at done
      cases done
    | ok found =>
      obtain ⟨labels, text⟩ := found
      rw [parseLines_of_takeLabels short taken] at done
      refine ⟨short, labels, text, rfl, ?_⟩
      by_cases empty : text = []
      · rw [if_pos empty] at done
        exact .inl ⟨empty, done⟩
      · rw [if_neg empty] at done
        obtain ⟨line, read, done⟩ := bind_eq_ok.1 done
        cases found : parseInstr text with
        | error e =>
          rw [found] at read
          cases read
        | ok line' =>
          rw [found] at read
          obtain rfl := Except.ok.inj read
          cases later : parseLines (n + 1) [] ls with
          | error e =>
            rw [later] at done
            cases done
          | ok rest =>
            rw [later] at done
            exact .inr ⟨_, rest, empty, rfl, rfl, (Except.ok.inj done).symm⟩
  · rintro ⟨short, labels, text, taken, ⟨empty, rest⟩ | ⟨line, rest, present, read, later, rfl⟩⟩
    · rw [parseLines_of_takeLabels short taken, if_pos empty, rest]
    · rw [parseLines_of_takeLabels short taken, if_neg present, read, later]
      rfl

theorem parseLines_append {n : Nat} {pending : List RawText} {xs ys : List RawText}
    {r s : List Line × List RawText} (first : parseLines n pending xs = .ok r)
    (second : parseLines (n + xs.length) r.2 ys = .ok s) :
    parseLines n pending (xs ++ ys) = .ok (r.1 ++ s.1, s.2) := by
  induction xs generalizing n pending r with
  | nil =>
    obtain rfl := Except.ok.inj first
    exact second
  | cons x xs ih =>
    rw [List.length_cons, ← Nat.add_assoc, Nat.add_right_comm] at second
    obtain ⟨short, labels, text, taken, ⟨empty, rest⟩ | ⟨line, rest, present, read, later, rfl⟩⟩ :=
      parseLines_cons_eq_ok.1 first
    · exact parseLines_cons_eq_ok.2 ⟨short, labels, text, taken, .inl ⟨empty, ih rest second⟩⟩
    · exact parseLines_cons_eq_ok.2 ⟨short, labels, text, taken,
        .inr ⟨line, _, present, read, ih later second, rfl⟩⟩

/-- Lines stand for the same instructions wherever they are, behind labels that wait for the first. -/
theorem parseLines_moved {n : Nat} {pending : List RawText} {ls : List RawText}
    {r : List Line × List RawText} (read : parseLines n pending ls = .ok r) (m : Nat)
    (before : List RawText) : ∃ s, parseLines m (before ++ pending) ls = .ok s ∧
      ∀ bits is, instrs bits ⟨r.1, r.2⟩ = .ok is →
        instrs bits ⟨s.1, s.2⟩ = .ok (before.map .bind ++ is) := by
  induction ls generalizing n m pending before r with
  | nil =>
    obtain rfl := Except.ok.inj read
    refine ⟨_, rfl, fun bits is found => ?_⟩
    obtain rfl := Except.ok.inj found
    simp [instrs, Line.instrs, Except.map]
  | cons l ls ih =>
    obtain ⟨short, labels, text, taken, ⟨empty, rest⟩ | ⟨line, rest, present, known, later, rfl⟩⟩ :=
      parseLines_cons_eq_ok.1 read
    · obtain ⟨s, moved, same⟩ := ih rest (m + 1) before
      refine ⟨s, parseLines_cons_eq_ok.2 ⟨short, labels, text, taken, .inl ⟨empty, ?_⟩⟩, same⟩
      rwa [List.append_assoc]
    · obtain ⟨s, moved, same⟩ := ih later (m + 1) []
      refine ⟨_, parseLines_cons_eq_ok.2 ⟨short, labels, text, taken,
        .inr ⟨line, s, present, known, moved, rfl⟩⟩, fun bits is found => ?_⟩
      obtain ⟨is', spelled, rfl⟩ := instrs_eq_ok.1 found
      obtain ⟨i, is, one, others, rfl⟩ := Line.instrs_cons.1 spelled
      obtain ⟨js, rest', split⟩ := instrs_eq_ok.1 (same bits _ (instrs_eq_ok.2 ⟨is, others, rfl⟩))
      refine instrs_eq_ok.2 ⟨_, Line.instrs_cons.2 ⟨i, js, one, rest', rfl⟩, ?_⟩
      simpa using split

theorem parseLines_blank (n : Nat) (pending : List RawText) : parseLines n pending [[]] = .ok ([], pending) := by
  have taken : takeLabels (clean (dropFinal (.char '\r') [])) = .ok ([], []) := by
    rw [takeLabels]
    rfl
  refine parseLines_cons_eq_ok.2 ⟨by decide, [], [], taken, .inl ⟨rfl, ?_⟩⟩
  rw [List.append_nil]
  rfl

theorem parse_eq_ok {src : RawText} {l : Listing} :
    parse src = .ok l ↔ parseLines 1 [] (Text.lines (.char '\n') src) = .ok (l.lines, l.tail) := by
  unfold parse
  cases parseLines 1 [] (Text.lines (.char '\n') src) with
  | error e => simp [bind, Except.bind]
  | ok r =>
    rcases r with ⟨lines, tail⟩
    rcases l with ⟨lines', tail'⟩
    simp [bind, Except.bind, pure, Except.pure]

/-- A text behind another is read where the other one ends, with the labels that are waiting there. -/
theorem parse_joined {p q : RawText} {l : Listing} {r : List Line × List RawText}
    (first : parse p = .ok l)
    (behind : parseLines (1 + (splitAt (.char '\n') p).length) l.tail (Text.lines (.char '\n') q) =
      .ok r) :
    parse (p ++ .char '\n' :: q) = .ok ⟨l.lines ++ r.1, r.2⟩ := by
  have front : parseLines 1 [] (splitAt (.char '\n') p) = .ok (l.lines, l.tail) := by
    have lines := parse_eq_ok.1 first
    rcases splitAt_eq_lines (.char '\n') p with same | last
    · rwa [same]
    · rw [last]
      simpa using parseLines_append lines (parseLines_blank _ _)
  rw [parse_eq_ok, lines_between]
  exact parseLines_append front behind

/-- A text behind another stands for the instructions of both. -/
theorem parse_append {p q : RawText} {l l' : Listing} (first : parse p = .ok l)
    (second : parse q = .ok l') : ∃ both, parse (p ++ .char '\n' :: q) = .ok both ∧
      ∀ bits is js, l.instrs bits = .ok is → l'.instrs bits = .ok js →
        both.instrs bits = .ok (is ++ js) := by
  obtain ⟨r, behind, moved⟩ := parseLines_moved (parse_eq_ok.1 second)
    (1 + (splitAt (.char '\n') p).length) l.tail
  rw [List.append_nil] at behind
  refine ⟨⟨l.lines ++ r.1, r.2⟩, parse_joined first behind, fun bits is js spelled spelled' => ?_⟩
  obtain ⟨is, here, rfl⟩ := instrs_eq_ok.1 spelled
  obtain ⟨js', there, split⟩ := instrs_eq_ok.1 (moved bits js spelled')
  refine instrs_eq_ok.2 ⟨_, Line.instrs_append here there, ?_⟩
  rw [List.append_assoc, split, List.append_assoc]

end Listing

end LaneAsm
