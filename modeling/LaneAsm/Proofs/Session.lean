import LaneAsm.Catalog.BuiltIn
import LaneAsm.Session
import LaneAsm.Proofs.Listing.Labels

/-!
What sessions remember. The lines of a session are put together as they stand, so a line behaves in the
whole as it does alone but for its labels (`Line.Moved`): where every line alone is encoded or fails for
a label, the whole fails for a label or a distance only (`Session.kind_of_code`). A session remembers
such lines, and with them any line that starts with a jump, whatever is wrong with it
(`session_remembers`).
-/
namespace LaneAsm

open Text

variable {σ : Type} {b : Backend σ} {g : Ledger b}

/-- The kind of a fault; a trap has none. -/
def Fault.kind? : Fault → Option ErrorKind
  | .error e => e.kind?
  | .trap => none

theorem Fault.kind?_within (f : Fault) (p : Place) : (f.within p).kind? = f.kind? := by
  cases f <;> rfl

/-! ## Lines elsewhere -/

namespace Line

/-- Lines that stand elsewhere: each has a number of its own, and may have labels in front of its own. -/
inductive Moved : List Line → List Line → Prop where
  | nil : Moved [] []
  | cons {ls ls' : List Line} (l : Line) (number : Nat) (front : List RawText) (rest : Moved ls ls') :
    Moved (l :: ls) ({ l with number := number, labels := front ++ l.labels } :: ls')

namespace Moved

variable {ls ls' ms ms' : List Line}

theorem refl (ls : List Line) : Moved ls ls := by
  induction ls with
  | nil => exact .nil
  | cons l ls ih => exact .cons l l.number [] ih

theorem trans (first : Moved ls ls') (second : Moved ls' ms) : Moved ls ms := by
  induction first generalizing ms with
  | nil => exact second
  | cons l number front rest ih =>
    cases second with
    | cons _ number' front' rest' =>
      have moved := Moved.cons l number' (front' ++ front) (ih rest')
      rwa [List.append_assoc] at moved

theorem append (first : Moved ls ls') (second : Moved ms ms') : Moved (ls ++ ms) (ls' ++ ms') := by
  induction first with
  | nil => exact second
  | cons l number front rest ih => exact .cons l number front ih

theorem names (moved : Moved ls ls') :
    (ls.flatMap Line.labels).Sublist (ls'.flatMap Line.labels) := by
  induction moved with
  | nil => exact .slnil
  | cons l number front rest ih => exact (List.sublist_append_right front l.labels).append ih

theorem accepted (moved : Moved ls ls') (all : ∀ l ∈ ls', ∃ i, l.Accepted g i) :
    ∀ l ∈ ls, ∃ i, l.Accepted g i := by
  induction moved with
  | nil => exact all
  | cons l number front rest ih =>
    obtain ⟨here, later⟩ := List.forall_mem_cons.1 all
    exact List.forall_mem_cons.2 ⟨here, ih later⟩

theorem split {before after : List Line} {line : Line} (moved : Moved ls (before ++ line :: after)) :
    ∃ before' l after' number front, ls = before' ++ l :: after' ∧ Moved before' before ∧
      line = { l with number := number, labels := front ++ l.labels } := by
  induction before generalizing ls with
  | nil =>
    cases moved with
    | cons l number front rest => exact ⟨[], l, _, number, front, rfl, .nil, rfl⟩
  | cons x before ih =>
    cases moved with
    | cons l' number' front' rest =>
      obtain ⟨before', l, after', number, front, rfl, earlier, same⟩ := ih rest
      exact ⟨l' :: before', l, after', number, front, rfl, .cons l' number' front' earlier, same⟩

end Moved

/-- What is wrong with a line is wrong with it elsewhere, unless it is a label there. -/
theorem Trouble.kind_eq {l l' : Line} {seen seen' : List RawText} {count count' : Nat} {f f' : Fault}
    (here : l.Trouble g seen count f) (there : l'.Trouble g seen' count' f')
    (same : l'.instr b.config.baseBits = l.instr b.config.baseBits)
    (names : (seen ++ l.labels).Sublist (seen' ++ l'.labels)) :
    f'.kind? = some .label ∨ f.kind? = f'.kind? := by
  cases there with
  | twice => exact .inl rfl
  | spelling wrong =>
    rw [same] at wrong
    cases here with
    | spelling wrong' =>
      obtain rfl := Except.error.inj (wrong.symm.trans wrong')
      exact .inr rfl
    | twice spelled =>
      rw [spelled] at wrong
      cases wrong
    | refused spelled =>
      rw [spelled] at wrong
      cases wrong
  | refused spelled distinct answer =>
    rw [same] at spelled
    cases here with
    | spelling wrong =>
      rw [spelled] at wrong
      cases wrong
    | @twice _ front rest n _ labels _ again =>
      have distinct := distinct.sublist names
      rw [labels, ← List.append_assoc] at distinct
      exact absurd distinct (not_nodup_of_mem again rest)
    | refused spelled' _ answer' =>
      obtain rfl := Except.ok.inj (spelled.symm.trans spelled')
      obtain rfl := Except.error.inj (answer.symm.trans answer')
      exact .inr ((Fault.kind?_within _ _).trans (Fault.kind?_within _ _).symm)

end Line

/-! ## Texts elsewhere -/

namespace Listing

theorem parseLines_elsewhere {n : Nat} {pending : List RawText} {ls : List RawText}
    {r : List Line × List RawText} (read : parseLines n pending ls = .ok r) (m : Nat)
    (before : List RawText) :
    ∃ s, parseLines m (before ++ pending) ls = .ok s ∧ Line.Moved r.1 s.1 := by
  induction ls generalizing n m pending before r with
  | nil =>
    obtain rfl := Except.ok.inj read
    exact ⟨_, rfl, .nil⟩
  | cons l ls ih =>
    obtain ⟨short, labels, text, taken, ⟨empty, rest⟩ | ⟨line, rest, present, known, later, rfl⟩⟩ :=
      parseLines_cons_eq_ok.1 read
    · obtain ⟨s, again, moved⟩ := ih rest (m + 1) before
      refine ⟨s, parseLines_cons_eq_ok.2 ⟨short, labels, text, taken, .inl ⟨empty, ?_⟩⟩, moved⟩
      rwa [List.append_assoc]
    · obtain ⟨s, again, moved⟩ := ih later (m + 1) []
      refine ⟨_, parseLines_cons_eq_ok.2 ⟨short, labels, text, taken,
        .inr ⟨line, s, present, known, again, rfl⟩⟩, ?_⟩
      rw [List.append_assoc]
      exact .cons { line with number := n, labels := pending ++ labels } m before moved

/-- A text behind another has the lines of both. -/
theorem parse_behind {p q : RawText} {l l' : Listing} (first : parse p = .ok l)
    (second : parse q = .ok l') : ∃ both, parse (p ++ .char '\n' :: q) = .ok both ∧
      Line.Moved (l.lines ++ l'.lines) both.lines := by
  obtain ⟨r, behind, moved⟩ := parseLines_elsewhere (parse_eq_ok.1 second)
    (1 + (splitAt (.char '\n') p).length) l.tail
  rw [List.append_nil] at behind
  exact ⟨⟨l.lines ++ r.1, r.2⟩, parse_joined first behind, (Line.Moved.refl l.lines).append moved⟩

/-- The lines that a text is read as. -/
def linesOf (t : RawText) : List Line :=
  match parse t with
  | .ok l => l.lines
  | .error _ => []

theorem parse_nil : parse [] = .ok ⟨[], []⟩ := by
  have none : Text.lines (.char '\n') ([] : RawText) = [] := by
    rw [Text.lines, splitAt]
    rfl
  exact parse_eq_ok.2 (congrArg (parseLines 1 []) none)

/-- Texts put together have the lines of all. -/
theorem parse_intercalate {ts : List RawText} (read : ∀ t ∈ ts, ∃ l, parse t = .ok l) :
    ∃ both, parse ([.char '\n'].intercalate ts) = .ok both ∧
      Line.Moved (ts.flatMap linesOf) both.lines := by
  induction ts with
  | nil => exact ⟨⟨[], []⟩, parse_nil, .nil⟩
  | cons t ts ih =>
    obtain ⟨⟨l, here⟩, later⟩ := List.forall_mem_cons.1 read
    obtain ⟨rest, read', moved⟩ := ih later
    have lines : linesOf t = l.lines := by rw [linesOf, here]
    rw [List.flatMap_cons, lines]
    cases ts with
    | nil =>
      refine ⟨l, by simpa [List.intercalate] using here, ?_⟩
      simpa using Line.Moved.refl l.lines
    | cons u us =>
      obtain ⟨both, joined, moved'⟩ := parse_behind here read'
      refine ⟨both, ?_, ((Line.Moved.refl l.lines).append moved).trans moved'⟩
      simpa [List.intercalate] using joined

end Listing

/-! ## Failing lines elsewhere -/

/-- What stands in lists that are put together stands in one of them. -/
theorem exists_of_flatMap_eq {α β : Type} {f : α → List β} {xs : List α} {before after : List β} {y : β}
    (split : xs.flatMap f = before ++ y :: after) :
    ∃ x ∈ xs, ∃ front rest, f x = front ++ y :: rest ∧ front <:+ before := by
  induction xs generalizing before with
  | nil => simp at split
  | cons x xs ih =>
    rw [List.flatMap_cons] at split
    rcases List.append_eq_append_iff.1 split with ⟨between, rfl, later⟩ | ⟨between, here, later⟩
    · obtain ⟨x', member, front, rest, found, ends⟩ := ih later
      exact ⟨x', List.mem_cons_of_mem x member, front, rest, found, ends.trans (List.suffix_append _ _)⟩
    · cases between with
      | nil =>
        have later : xs.flatMap f = [] ++ y :: after := later.symm
        obtain ⟨x', member, front, rest, found, ends⟩ := ih later
        exact ⟨x', List.mem_cons_of_mem x member, front, rest, found, ends.trans List.nil_suffix⟩
      | cons z between =>
        obtain ⟨rfl, -⟩ := List.cons.inj later
        exact ⟨x, List.mem_cons_self, before, between, here, List.suffix_refl before⟩

namespace Listing

/-- A listing fails at the first line that is not accepted, if the names that are bound up to it are
distinct. -/
theorem assemble_at (law : g.Lawful) {l : Listing} {before after : List Line} {line : Line}
    (lines : l.lines = before ++ line :: after) (accepted : ∀ x ∈ before, ∃ i, x.Accepted g i)
    (distinct : (before.flatMap Line.labels).Nodup) (wrong : ¬ ∃ i, line.Accepted g i) :
    ∃ f, line.Trouble g (before.flatMap Line.labels) (Line.calls before) f ∧
      (l.assemble b (.start g.fresh)).1 = .error (f.within (.line line.number)) := by
  rcases assemble_cases law l with ⟨all, -⟩ |
    ⟨before', line', after', f, lines', accepted', -, trouble, failed⟩ | ⟨e, all, -⟩
  · exact absurd (all line (by simp [lines])) wrong
  · rw [lines'] at lines
    rcases List.append_eq_append_iff.1 lines with ⟨between, rfl, rest⟩ | ⟨between, rfl, rest⟩
    · cases between with
      | nil =>
        obtain ⟨rfl, -⟩ := List.cons.inj rest
        rw [List.append_nil]
        exact ⟨f, trouble, failed⟩
      | cons x between =>
        obtain ⟨rfl, -⟩ := List.cons.inj rest
        have fine := accepted line' (by simp)
        obtain ⟨front, n, rest, labels, -, again, -⟩ := trouble.twice_of_accepted fine
        rw [List.flatMap_append, List.flatMap_cons, labels] at distinct
        refine absurd ?_ (not_nodup_of_mem again (rest ++ between.flatMap Line.labels))
        simpa using distinct
    · cases between with
      | nil =>
        obtain ⟨rfl, -⟩ := List.cons.inj rest
        rw [List.append_nil] at trouble
        exact ⟨f, trouble, failed⟩
      | cons x between =>
        obtain ⟨rfl, -⟩ := List.cons.inj rest
        exact absurd (accepted' line (by simp)) wrong
  · exact absurd (all line (by simp [lines])) wrong

section
variable {cfg : Config} {b : Backend Buffer} {l : Listing} {f : Fault}

/-- Encoding is issuing on a fresh assembler, and finishing what was issued. -/
theorem encode_cases (found : encoder? cfg = .ok b) (l : Listing) :
    (∀ f a, l.assemble b (.start .empty) = (.error f, a) → l.encode cfg = .error f) ∧
      ∀ a, l.assemble b (.start .empty) = (.ok (), a) → l.encode cfg = (a.code b).1 := by
  have lifted : Fault.lift (encoder? cfg) = .ok b := by
    rw [found]
    rfl
  unfold Listing.encode
  rw [lifted]
  constructor
  · intro f a ended
    simp only [bind, Except.bind, ended]
    rfl
  · intro a ended
    simp only [bind, Except.bind, ended]

theorem encode_error (found : encoder? cfg = .ok b)
    (failed : (l.assemble b (.start .empty)).1 = .error f) : l.encode cfg = .error f :=
  (encode_cases found l).1 f _ (Prod.ext failed rfl)

/-- A listing that was issued fails for a label that is missing, or for one that is out of reach. -/
theorem kind_of_finish {g : Ledger b} (law : g.Lawful) {seen wanted : List RawText} {count : Nat}
    {a : Assembly Buffer} (kept : Assembly.Kept g seen wanted count a) (found : encoder? cfg = .ok b)
    (done : l.assemble b (.start .empty) = (.ok (), a.assembler)) (failed : l.encode cfg = .error f) :
    f.kind? = some .label ∨ ¬ g.Near a.assembler.state ∧ f.kind? = some .branchRange := by
  rw [(encode_cases found l).2 _ done] at failed
  rcases kept.finish law with ⟨⟨c, finished⟩, -⟩ | ⟨n, -, -, finished⟩ | ⟨c, far, kind, finished⟩
  · rw [finished] at failed
    cases failed
  · obtain rfl := Except.error.inj (finished.symm.trans failed)
    exact .inl rfl
  · obtain rfl := Except.error.inj (finished.symm.trans failed)
    exact .inr ⟨far, kind⟩

end

end Listing

theorem encode_of_parse {cfg : Config} {t : RawText} {l : Listing} (read : Listing.parse t = .ok l) :
    encode cfg t = l.encode cfg := by
  rw [encode, read]
  rfl

namespace Session

/-- A text alone is encoded or fails for a label. -/
def Stands (cfg : Config) (t : RawText) : Prop := ∀ f, encode cfg t = .error f → f.kind? = some .label

/-- A text that starts with a jump, and alone fails for something other than a label. -/
def Slips (cfg : Config) (t : RawText) : Prop :=
  t.head? ≠ some (.char ':') ∧ ∃ l first rest e, Listing.parse t = .ok l ∧ l.lines = first :: rest ∧
    first.target ≠ [] ∧ l.encode cfg = .error (.error e) ∧ e.kind? ≠ some .label

theorem Slips.not_stands {cfg : Config} {t : RawText} (slips : Slips cfg t) : ¬ Stands cfg t := by
  obtain ⟨-, l, _, _, e, read, -, -, encoded, kind⟩ := slips
  exact fun stands => kind (stands _ ((encode_of_parse read).trans encoded))

section
variable {cfg : Config} {b : Backend Buffer}

/-- A text without instructions can fail for a label only. -/
theorem stands_of_lines_nil (found : encoder? cfg = .ok b) {t : RawText} {l : Listing}
    (read : Listing.parse t = .ok l) (none : l.lines = []) : Stands cfg t := by
  obtain ⟨br, lays, drafts⟩ := encoder?_lays found
  have law := lays.lawful drafts
  intro f failed
  rw [encode_of_parse read] at failed
  rcases Listing.assemble_cases law l with ⟨-, -, a, done, kept⟩ | ⟨before, line, after, f', lines, -⟩ |
    ⟨e, -, repeats, ended⟩
  · have empty : l.targets b.config.baseBits = [] := by rw [Listing.targets, none]; rfl
    have near : (br.ledger b).Near a.assembler.state := by
      intro fixup member
      obtain ⟨n, wanted, -⟩ := (kept.refers fixup.label).1 ⟨fixup, member, rfl⟩
      rw [empty] at wanted
      exact absurd wanted List.not_mem_nil
    exact (Listing.kind_of_finish law kept found done failed).resolve_right fun far => far.1 near
  · rw [none] at lines
    exact absurd lines.symm (by simp)
  · obtain rfl := Except.error.inj ((Listing.encode_error found ended).symm.trans failed)
    exact repeats.kind

/-- Where every line alone stands, the lines together fail for a label or a distance only. -/
theorem kind_of_code {s : Session} (found : encoder? s.target = .ok b)
    (read : ∀ t ∈ s.lines, ∃ l, Listing.parse t = .ok l) (stands : ∀ t ∈ s.lines, Stands s.target t)
    {f : Fault} (failed : s.code = .error f) :
    f.kind? = some .label ∨ f.kind? = some .branchRange := by
  obtain ⟨br, lays, drafts⟩ := encoder?_lays found
  have law := lays.lawful drafts
  obtain ⟨both, joined, moved⟩ := Listing.parse_intercalate read
  rw [code, encode_of_parse joined] at failed
  rcases Listing.assemble_cases law both with ⟨-, -, a, done, kept⟩ |
    ⟨before, line, after, f', lines, accepted, distinct, trouble, ended⟩ | ⟨e, -, repeats, ended⟩
  · exact (Listing.kind_of_finish law kept found done failed).imp_right And.right
  · obtain rfl := Except.error.inj ((Listing.encode_error found ended).symm.trans failed)
    rw [Fault.kind?_within]
    rw [lines] at moved
    obtain ⟨before', line', after', number, front, split, earlier, rfl⟩ := moved.split
    by_cases fine : ∃ i, line'.Accepted (br.ledger b) i
    · obtain ⟨_, _, _, -, -, -, rfl⟩ := trouble.twice_of_accepted fine
      exact .inl rfl
    · -- the text that the line comes from fails at the line too, when it stands alone
      obtain ⟨t, member, front', rest, found', lead, rfl⟩ := exists_of_flatMap_eq split
      obtain ⟨l, readt⟩ := read t member
      rw [Listing.linesOf, readt] at found'
      have names : (front'.flatMap Line.labels).Sublist (before.flatMap Line.labels) := by
        have names := earlier.names
        rw [List.flatMap_append] at names
        exact (List.sublist_append_right _ _).trans names
      have accepted' := earlier.accepted accepted
      obtain ⟨f, here, ended'⟩ := Listing.assemble_at law found'
        (fun x inside => accepted' x (List.mem_append_right lead inside)) (distinct.sublist names) fine
      have alone := stands t member _ ((encode_of_parse readt).trans (Listing.encode_error found ended'))
      rw [Fault.kind?_within] at alone
      rcases here.kind_eq trouble rfl (names.append (List.sublist_append_right front line'.labels)) with
        label | same
      · exact .inl label
      · exact .inl (same.symm.trans alone)
  · obtain rfl := Except.error.inj ((Listing.encode_error found ended).symm.trans failed)
    exact .inl repeats.kind

end

/-! ## Answers -/

/-- An input that is neither a script nor a change of the target. -/
def Plain (i : RawText) : Prop :=
  i.trim.head? ≠ some (.char '!') ∧ RawText.text (i.trim.takeWhile (· ≠ .char ' ')) ≠ ":target"

/-- How a session answers a line that is neither a script nor a change of the target: an answer that
changes the session reports no error. -/
inductive Answer (s : Session) (line : RawText) (r : Reply) : Prop where
  | stays (same : r.session = s)
  | resets (empty : r.session = { s with lines := [] }) (clean : ∀ rest, r.text ≠ "error: " ++ rest)
  | stores {l : Listing} (word : line.head? ≠ some (.char ':')) (read : Listing.parse line = .ok l)
    (kept : l.lines = [] ∨ (∃ code, l.encode s.target = .ok code) ∨
      ∃ first rest e, l.lines = first :: rest ∧ first.target ≠ [] ∧
        l.encode s.target = .error (.error e))
    (longer : r.session = s.remember line) (clean : ∀ rest, r.text ≠ "error: " ++ rest)

/-- Digits do not spell an error. -/
theorem hexBytes_ne_error (bs : List UInt8) (rest : String) :
    hexBytes bs ++ "\n" ≠ "error: " ++ rest := by
  have digit : ∀ n : Fin 16, hexDigit n.val ≠ 'r' := by decide
  intro same
  have same := congrArg String.toList same
  cases bs with
  | nil => simp [hexBytes] at same
  | cons b bs =>
    simp only [hexBytes, hexByte, List.flatMap_cons, String.toList_append, String.toList_ofList,
      List.cons_append] at same
    have second := congrArg (·[1]?) same
    exact digit ⟨b.toNat % 16, Nat.mod_lt _ (by decide)⟩ (Option.some.inj second)

theorem session_complain (s : Session) (f : Fault) : (s.complain f).session = s := by
  cases f <;> rfl

theorem instruction_answer (s : Session) {line : RawText} (word : line.head? ≠ some (.char ':')) :
    s.Answer line (s.instruction line) := by
  cases read : Listing.parse line with
  | error f =>
    simp only [instruction, read]
    exact .stays (s.session_complain f)
  | ok l =>
    cases lines : l.lines with
    | nil =>
      simp only [instruction, read, lines]
      exact .stores word read (.inl lines) rfl fun rest => by simp [say]
    | cons first rest =>
      cases encoded : l.encode s.target with
      | ok code =>
        simp only [instruction, read, lines, encoded]
        exact .stores word read (.inr (.inl ⟨code, encoded⟩)) rfl (hexBytes_ne_error _)
      | error f =>
        cases f with
        | trap =>
          simp only [instruction, read, lines, encoded]
          exact .stays rfl
        | error e =>
          simp only [instruction, read, lines, encoded]
          split
          · exact .stays rfl
          · next jumps =>
            refine .stores word read (.inr (.inr ⟨first, rest, e, lines, jumps, encoded⟩)) rfl ?_
            intro rest same
            have same := congrArg String.toList same
            simp [say] at same

theorem command_answer (tools : Tools) (s : Session) {line word : RawText} (arg : RawText)
    (other : word.text ≠ ":target") : s.Answer line (s.command tools word arg) := by
  unfold command
  split
  · exact .stays rfl
  · exact .stays rfl
  · exact .stays rfl
  · next target => exact absurd target other
  · exact .resets rfl fun rest => by simp [say]
  · split
    · exact .stays rfl
    · exact .stays (s.session_complain _)
  · exact .stays rfl

theorem head?_word (line : RawText) :
    (line.takeWhile (· ≠ .char ' ')).head? = some (.char ':') ↔ line.head? = some (.char ':') := by
  rw [List.head?_takeWhile]
  cases line with
  | nil => simp
  | cons x rest =>
    simp only [List.head?_cons, Option.filter_some]
    constructor
    · intro found
      split at found
      · exact found
      · cases found
    · intro same
      obtain rfl := Option.some.inj same
      rfl

theorem eval_eq (tools : Tools) (s : Session) {i : RawText} (other : i.trim.head? ≠ some (.char '!')) :
    s.eval tools i = s.plainLine tools i.trim := by
  unfold eval
  rw [evalTo]
  split
  · next script same =>
    rw [same] at other
    exact absurd rfl other
  · rfl

theorem eval_answer (tools : Tools) (s : Session) {i : RawText} (plain : Plain i) :
    s.Answer i.trim (s.eval tools i) := by
  rw [eval_eq tools s plain.1, plainLine]
  split
  · exact .stays rfl
  · simp only
    split
    · exact command_answer tools s _ plain.2
    · next word => exact instruction_answer s (mt (head?_word _).2 word)

/-- A line that slips is remembered as if its label were all that is missing. -/
theorem eval_of_slips (tools : Tools) (s : Session) {i : RawText} (plain : Plain i)
    (slips : Slips s.target i.trim) :
    s.eval tools i = (s.remember i.trim).say "(branch resolved by :list)\n" := by
  obtain ⟨word, l, first, rest, e, read, lines, jumps, encoded, -⟩ := slips
  have present : i.trim.isEmpty = false := by
    rw [List.isEmpty_eq_false_iff]
    intro empty
    rw [empty, Listing.parse_nil] at read
    obtain rfl := Except.ok.inj read
    cases lines
  rw [eval_eq tools s plain.1, plainLine, if_neg (by rw [present]; decide)]
  simp only [if_neg (mt (head?_word _).1 word), instruction, read, lines, encoded, if_neg jumps]

/-! ## Whole sessions -/

/-- The session after some inputs. -/
def after (tools : Tools) (s : Session) (inputs : List RawText) : Session :=
  inputs.foldl (fun s i => (s.eval tools i).session) s

/-- Every line that the session remembers is one of the inputs, is read, and stands or slips. -/
structure Remembers (cfg : Config) (inputs : List RawText) (s : Session) : Prop where
  target : s.target = cfg
  lines : ∀ t ∈ s.lines, (∃ i ∈ inputs, t = i.trim) ∧ (∃ l, Listing.parse t = .ok l) ∧
    (Stands cfg t ∨ Slips cfg t)

section
variable {cfg : Config} {b : Backend Buffer} {inputs : List RawText} {s : Session}

theorem Remembers.eval (found : encoder? cfg = .ok b) (tools : Tools) (remembers : Remembers cfg inputs s)
    {i : RawText} (plain : Plain i) : Remembers cfg (inputs ++ [i]) (s.eval tools i).session := by
  have old : ∀ t ∈ s.lines, (∃ j ∈ inputs ++ [i], t = j.trim) ∧ (∃ l, Listing.parse t = .ok l) ∧
      (Stands cfg t ∨ Slips cfg t) := by
    intro t member
    obtain ⟨⟨j, known, same⟩, rest⟩ := remembers.lines t member
    exact ⟨⟨j, List.mem_append_left _ known, same⟩, rest⟩
  cases eval_answer tools s plain with
  | stays same =>
    rw [same]
    exact ⟨remembers.target, old⟩
  | resets empty _ =>
    rw [empty]
    exact ⟨remembers.target, List.forall_mem_nil _⟩
  | @stores l word read kept longer _ =>
    rw [longer]
    refine ⟨remembers.target, fun t member => ?_⟩
    rcases List.mem_append.1 member with earlier | last
    · exact old t earlier
    · obtain rfl := List.mem_singleton.1 last
      refine ⟨⟨i, by simp, rfl⟩, ⟨l, read⟩, ?_⟩
      rw [remembers.target] at kept
      rcases kept with none | ⟨code, encoded⟩ | ⟨first, rest, e, lines, jumps, failed⟩
      · exact .inl (stands_of_lines_nil found read none)
      · refine .inl fun f failed => ?_
        rw [encode_of_parse read, encoded] at failed
        cases failed
      · by_cases kind : e.kind? = some .label
        · refine .inl fun f failed' => ?_
          rw [encode_of_parse read, failed] at failed'
          obtain rfl := Except.error.inj failed'
          exact kind
        · exact .inr ⟨word, l, first, rest, e, read, lines, jumps, failed, kind⟩

theorem Remembers.after (found : encoder? cfg = .ok b) (tools : Tools) (remembers : Remembers cfg inputs s)
    {more : List RawText} (plain : ∀ i ∈ more, Plain i) :
    Remembers cfg (inputs ++ more) (s.after tools more) := by
  induction more generalizing inputs s with
  | nil => rwa [List.append_nil]
  | cons i more ih =>
    obtain ⟨here, later⟩ := List.forall_mem_cons.1 plain
    rw [List.append_cons]
    exact ih (remembers.eval found tools here) later

end

/-- What the command that lists the lines answers. -/
theorem eval_list (tools : Tools) (s : Session) : s.eval tools (.ofString ":list") =
    match s.code with
    | .ok code => s.say (disassemble tools.decoder s.target.isa code)
    | .error f => s.complain f := by
  rw [eval_eq tools s (by decide)]
  rfl

end Session

/-- A session for a fixed target remembers inputs that stand alone, and any input that slips. If none of
its lines slips, listing them fails for a label or a distance only. An input that is answered with an
error is not remembered. -/
theorem session_remembers (tools : Tools) {cfg : Config} {b : Backend Buffer}
    (found : encoder? cfg = .ok b) {inputs : List RawText} (plain : ∀ i ∈ inputs, Session.Plain i) :
    let last := Session.after tools ⟨cfg, []⟩ inputs
    last.target = cfg ∧
    (∀ t ∈ last.lines, (∃ i ∈ inputs, t = i.trim) ∧ (∃ l, Listing.parse t = .ok l) ∧
      (Session.Stands cfg t ∨ Session.Slips cfg t)) ∧
    ((∀ t ∈ last.lines, ¬ Session.Slips cfg t) →
      (∃ code, last.code = .ok code ∧
        last.eval tools (.ofString ":list") = last.say (disassemble tools.decoder cfg.isa code)) ∨
      ∃ e, last.code = .error (.error e) ∧ last.eval tools (.ofString ":list") = last.complain (.error e) ∧
        (e.kind? = some .label ∨ e.kind? = some .branchRange)) ∧
    ∀ i, Session.Plain i →
      (Session.Slips cfg i.trim →
        last.eval tools i = (last.remember i.trim).say "(branch resolved by :list)\n") ∧
      ∀ rest, (last.eval tools i).text = "error: " ++ rest → (last.eval tools i).session = last := by
  intro last
  have fresh : Session.Remembers cfg [] ⟨cfg, []⟩ := ⟨rfl, List.forall_mem_nil _⟩
  have remembers : Session.Remembers cfg inputs last := fresh.after found tools plain
  obtain ⟨target, lines⟩ := remembers
  refine ⟨target, lines, fun none => ?_, fun i plain => ⟨fun slips => ?_, fun rest text => ?_⟩⟩
  · have stands : ∀ t ∈ last.lines, Session.Stands last.target t := by
      intro t member
      rw [target]
      exact (lines t member).2.2.resolve_right (none t member)
    have list := Session.eval_list tools last
    rw [target] at list
    cases listed : last.code with
    | ok code =>
      rw [listed] at list
      exact .inl ⟨code, rfl, list⟩
    | error f =>
      rw [listed] at list
      have kind := Session.kind_of_code (target.symm ▸ found) (fun t member => (lines t member).2.1)
        stands listed
      cases f with
      | error e => exact .inr ⟨e, rfl, list, kind⟩
      | trap => rcases kind with kind | kind <;> cases kind
  · rw [← target] at slips
    exact Session.eval_of_slips tools last plain slips
  · cases Session.eval_answer tools last plain with
    | stays same => exact same
    | resets _ clean => exact absurd text (clean rest)
    | stores _ _ _ _ clean => exact absurd text (clean rest)

/-- A mask jump on a base register, to any label. -/
theorem Session.slips_maskJump :
    Session.Slips (.x86 Level.sse2 "sse2" "128" 16 1) (.ofString "mkjox_rx Recx, NONE, top") := by
  have read : Listing.parse (.ofString "mkjox_rx Recx, NONE, top")
      = .ok ⟨[⟨1, [], ⟨.op .mkj, .o, .unsigned, .rx⟩, [.reg ⟨.base, 1⟩], .none, .eq, .ofString "top"⟩],
        []⟩ :=
    Machine.toOption_eq_some.1 (by decide +kernel)
  have encoded : Listing.encode (.x86 Level.sse2 "sse2" "128" 16 1)
      ⟨[⟨1, [], ⟨.op .mkj, .o, .unsigned, .rx⟩, [.reg ⟨.base, 1⟩], .none, .eq, .ofString "top"⟩], []⟩
      = .error (.error ⟨[.line 1, .instruction 1 "mkj"], .operandKind (.notVector ⟨.base, 1⟩)⟩) := rfl
  exact ⟨by decide +kernel, _, _, _, _, read, rfl, by decide, encoded, by decide⟩

/-- A jump ahead and its label are remembered. Behind them a mask jump on a base register slips, and it
is remembered too. -/
theorem session_remembers_jumps :
    let cfg : Config := .x86 Level.sse2 "sse2" "128" 16 1
    let slip : RawText := .ofString "mkjox_rx Recx, NONE, top"
    let last := Session.after (.ofCatalog .standard) ⟨cfg, []⟩ [.ofString "jmpxx_lb top", .ofString "top:"]
    (∃ b, encoder? cfg = .ok b) ∧ Session.Slips cfg slip ∧
    (∀ t ∈ last.lines, Session.Stands cfg t ∨ Session.Slips cfg t) ∧
    (last.eval (.ofCatalog .standard) slip).session = last.remember slip := by
  intro cfg slip last
  have found : encoder? cfg = .ok (X86.backend cfg) := rfl
  have plain : ∀ i ∈ [RawText.ofString "jmpxx_lb top", .ofString "top:"], Session.Plain i := by
    unfold Session.Plain
    decide +kernel
  have same : slip.trim = slip := by decide +kernel
  obtain ⟨-, lines, -, answers⟩ := session_remembers (.ofCatalog .standard) found plain
  have slips : Session.Slips cfg slip.trim := same.symm ▸ Session.slips_maskJump
  have answer := (answers slip ⟨by decide +kernel, by decide +kernel⟩).1 slips
  rw [same] at slips answer
  refine ⟨⟨_, found⟩, slips, fun t member => (lines t member).2.2, ?_⟩
  exact congrArg Reply.session answer

/-- A mask jump on a base register is refused in every program, and yet it is remembered. -/
theorem refused_jump_remembered :
    let s : Session := ⟨.x86 Level.sse2 "sse2" "128" 16 1, []⟩
    let line : RawText := .ofString "mkjox_rx Recx, NONE, top"
    s.eval (.ofCatalog .standard) line = ⟨"(branch resolved by :list)\n", .goesOn, ⟨s.target, [line]⟩⟩ ∧
    ¬ Session.Stands s.target line := by
  intro s line
  have same : line.trim = line := by decide +kernel
  have slips : Session.Slips s.target line.trim := same.symm ▸ Session.slips_maskJump
  constructor
  · rw [Session.eval_of_slips (.ofCatalog .standard) s ⟨by decide +kernel, by decide +kernel⟩ slips, same]
    rfl
  · rw [same] at slips
    exact slips.not_stands

end LaneAsm
