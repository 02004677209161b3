import LaneAsm.Proofs.Branches
import LaneAsm.Proofs.Joining
import LaneAsm.Proofs.Listing.Program
import Mathlib.Control.Monad.Basic

/-!
Listings behind each other. The label of a name that a listing uses is bound in it, or finishing fails
(`Accounted.bound_of_finish`). Listings that bind no name in common then use no name in common, and the second is
encoded behind the first as it is on its own: every step moves on by the same bytes and labels
(`Joined.issueAll?`), and the code is that of both, one behind the other (`encode_append`).
-/
namespace LaneAsm

variable {br : Branching} {b : Backend Buffer}

theorem Instr.target?_ne_none {L : Type} {i : Instr L} (other : ∀ m, i ≠ .bind m) {n : L}
    (labelled : i.label? = some n) : i.target? ≠ none := by
  cases i with
  | bind m => exact absurd rfl (other m)
  | maskJump src cond m => exact nofun
  | compareJump x y cond m => exact nofun
  | jump m => exact nofun
  | _ => cases labelled

theorem Buffer.bind_eq_ok {s s' : Buffer} {l : Label} : s.bind (some l) = .ok s' ↔
    s.labels[l.id]? = some none ∧ s' = { s with labels := s.labels.setIfInBounds l.id (some s.size) } := by
  unfold Buffer.bind
  dsimp only
  rcases s.labels[l.id]? with _ | _ | place <;> simp [Error.fail, eq_comm]

theorem Backend.Lays.bind_of_issueAll (lays : b.Lays br) {l : LabelRef} {s s' : Buffer} :
    b.issueAll [.bind l] s = (.ok (), s') ↔ s.bind l = .ok s' := by
  rw [Backend.issueAll, lays.bind]
  cases s.bind l with
  | ok s₁ => simp [Backend.issueAll]
  | error e => simp

theorem lookup_cons (name n : RawText) (l : Label) (labels : List (RawText × Label)) :
    List.lookup n ((name, l) :: labels) = if n = name then some l else labels.lookup n := by
  rw [List.lookup_cons]
  by_cases same : n = name
  · simp [same]
  · rw [if_neg same, beq_eq_false_iff_ne.2 same]

theorem Draft.map_toward_moved (drafts : List Draft) (l : LabelRef) (k : Nat) :
    drafts.map (Draft.toward (l.map (Label.moved k)))
      = (drafts.map (Draft.toward l)).map (Piece.moved k) := by
  rw [List.map_map]
  refine List.map_congr_left fun d _ => ?_
  rcases d with ⟨bytes, _ | _⟩ <;> rfl

namespace Assembly

theorem label_old {a : Assembly Buffer} {name : RawText} {l : Label}
    (found : a.labels.lookup name = some l) : a.label b name = (l, a) := by
  simp only [label, found]

theorem label_new (lays : b.Lays br) {a : Assembly Buffer} {name : RawText}
    (new : a.labels.lookup name = none) :
    a.label b name = ((a.assembler.state.newLabel name).1,
      ⟨{ a.assembler with state := (a.assembler.state.newLabel name).2 },
        (name, (a.assembler.state.newLabel name).1) :: a.labels⟩) := by
  simp only [label, new, Assembler.newLabel, lays.newLabel]

/-- An instruction over label names is issued without an error if all its primitives are. -/
theorem issue_eq_ok {a a' : Assembly Buffer} {i : Instr RawText} :
    a.issue b i = (.ok (), a') ∧ a'.assembler.error? = none ↔ a.assembler.error? = none ∧
      (b.lower (i.mapLabel fun _ => (a.refer b i).1)).outcome = .ok () ∧
      ∃ s, b.issueAll (b.lower (i.mapLabel fun _ => (a.refer b i).1)).items (a.refer b i).2.assembler.state
        = (.ok (), s) ∧ a' = ⟨⟨s, (a.refer b i).2.assembler.count + 1, none⟩, (a.refer b i).2.labels⟩ := by
  rw [← error?_refer b a i, issue_eq]
  rcases a' with ⟨a', labels⟩
  simp only [Prod.mk.injEq, mk.injEq]
  constructor
  · rintro ⟨⟨ended, rfl, rfl⟩, clear⟩
    obtain ⟨kept, planned, s, issued, after⟩ := Assembler.issue_eq_ok.1 ⟨Prod.ext ended rfl, clear⟩
    exact ⟨kept, planned, s, issued, after, rfl⟩
  · rintro ⟨kept, planned, s, issued, rfl, rfl⟩
    obtain ⟨same, clear⟩ := Assembler.issue_eq_ok.2 ⟨kept, planned, s, issued, rfl⟩
    rw [same]
    exact ⟨⟨rfl, rfl, rfl⟩, clear⟩

/-! ## Names -/

/-- The labels of instructions issued so far, apart from that of a name whose instruction is yet to come:
names have labels of their own, those with a place are bound, and the others are referred to. -/
structure Accounted (done : List (Instr RawText)) (pending : Option RawText) (a : Assembly Buffer) :
    Prop where
  known : ∀ i ∈ done, ∀ n, i.label? = some n → ∃ l, a.labels.lookup n = some l
  made : ∀ n l, a.labels.lookup n = some l → l.id < a.assembler.state.labels.size
  apart : ∀ n m l l', a.labels.lookup n = some l → a.labels.lookup m = some l' → l.id = l'.id → n = m
  placed : ∀ n l, a.labels.lookup n = some l → Call.place a.assembler.state l.id ≠ none →
    .bind n ∈ done
  used : ∀ n l, a.labels.lookup n = some l → pending ≠ some n →
    Call.place a.assembler.state l.id ≠ none ∨ ∃ f ∈ a.assembler.state.fixups, f.label = some l

namespace Accounted

theorem start : Accounted [] none ⟨.start .empty, []⟩ :=
  ⟨List.forall_mem_nil _, nofun, nofun, nofun, nofun⟩

variable {done : List (Instr RawText)} {a : Assembly Buffer}

/-- A label that is new has a number of its own and no place. -/
theorem label (lays : b.Lays br) (accounted : Accounted done none a) (name : RawText) :
    Accounted done (some name) (a.label b name).2 ∧
      (a.label b name).2.labels.lookup name = some (a.label b name).1 := by
  cases found : a.labels.lookup name with
  | some l =>
    rw [label_old found]
    refine ⟨⟨accounted.known, accounted.made, accounted.apart, accounted.placed, ?_⟩, found⟩
    exact fun n l made _ => accounted.used n l made nofun
  | none =>
    rw [label_new lays found]
    have cases_on {n : RawText} {l : Label}
        (made : List.lookup n ((name, (a.assembler.state.newLabel name).1) :: a.labels) = some l) :
        (n = name ∧ l = ⟨name, a.assembler.state.labels.size⟩) ∨
          (n ≠ name ∧ a.labels.lookup n = some l) := by
      rw [lookup_cons] at made
      split at made
      · next same => exact .inl ⟨same, (Option.some.inj made).symm⟩
      · next other => exact .inr ⟨other, made⟩
    have unplaced : Call.place a.assembler.state a.assembler.state.labels.size = none := by
      simp [Call.place]
    have size : (a.assembler.state.newLabel name).2.labels.size = a.assembler.state.labels.size + 1 :=
      Array.size_push ..
    refine ⟨⟨?_, ?_, ?_, ?_, ?_⟩, by rw [lookup_cons, if_pos rfl]⟩
    · intro i member n labelled
      obtain ⟨l, made⟩ := accounted.known i member n labelled
      have other : n ≠ name := by
        rintro rfl
        rw [found] at made
        cases made
      exact ⟨l, by rw [lookup_cons, if_neg other, made]⟩
    · intro n l made
      rw [size]
      rcases cases_on made with ⟨-, rfl⟩ | ⟨-, old⟩
      · exact Nat.lt_succ_self _
      · exact Nat.lt_succ_of_lt (accounted.made n l old)
    · intro n m l l' made made' same
      rcases cases_on made with ⟨rfl, rfl⟩ | ⟨-, old⟩
      · rcases cases_on made' with ⟨rfl, -⟩ | ⟨-, old'⟩
        · rfl
        · exact absurd same (Nat.ne_of_gt (accounted.made m l' old'))
      · rcases cases_on made' with ⟨-, rfl⟩ | ⟨-, old'⟩
        · exact absurd same (Nat.ne_of_lt (accounted.made n l old))
        · exact accounted.apart n m l l' old old' same
    · intro n l made place
      rw [Call.place_newLabel] at place
      rcases cases_on made with ⟨-, rfl⟩ | ⟨-, old⟩
      · exact absurd unplaced place
      · exact accounted.placed n l old place
    · intro n l made other
      rw [Call.place_newLabel]
      rcases cases_on made with ⟨rfl, -⟩ | ⟨-, old⟩
      · exact absurd rfl other
      · exact accounted.used n l old nofun

theorem known_append {i : Instr RawText} {labels : List (RawText × Label)}
    (known : ∀ j ∈ done, ∀ n, j.label? = some n → ∃ l, labels.lookup n = some l)
    (last : ∀ n, i.label? = some n → ∃ l, labels.lookup n = some l) :
    ∀ j ∈ done ++ [i], ∀ n, j.label? = some n → ∃ l, labels.lookup n = some l :=
  List.forall_mem_append.2 ⟨known, List.forall_mem_singleton.2 last⟩

/-- Binding the label of a name gives it its place. -/
theorem bind {name : RawText} {l : Label} {s : Buffer} (count : Nat) (error : Option Error)
    (accounted : Accounted done (some name) a) (found : a.labels.lookup name = some l)
    (bound : a.assembler.state.bind (some l) = .ok s) :
    Accounted (done ++ [.bind name]) none ⟨⟨s, count, error⟩, a.labels⟩ := by
  obtain ⟨unbound, rfl⟩ := Buffer.bind_eq_ok.1 bound
  have inside : l.id < a.assembler.state.labels.size := (Array.getElem?_eq_some_iff.1 unbound).1
  have here : Call.place { a.assembler.state with
      labels := a.assembler.state.labels.setIfInBounds l.id (some a.assembler.state.size) } l.id
      = some a.assembler.state.size := by
    simp [Call.place, inside]
  have there {id : Nat} (other : id ≠ l.id) : Call.place { a.assembler.state with
      labels := a.assembler.state.labels.setIfInBounds l.id (some a.assembler.state.size) } id
      = Call.place a.assembler.state id := by
    simp [Call.place, Array.getElem?_setIfInBounds_ne other.symm]
  refine ⟨known_append accounted.known fun n labelled => ?_, fun n l' made => ?_, accounted.apart,
    fun n l' made place => ?_, fun n l' made _ => ?_⟩
  · obtain rfl := Option.some.inj labelled
    exact ⟨l, found⟩
  · rw [Array.size_setIfInBounds]
    exact accounted.made n l' made
  · by_cases same : l'.id = l.id
    · obtain rfl := accounted.apart n name l' l made found same
      exact List.mem_append_right _ (List.mem_singleton_self _)
    · rw [there same] at place
      exact List.mem_append_left _ (accounted.placed n l' made place)
  · by_cases same : l'.id = l.id
    · rw [same, here]
      exact .inl (Option.some_ne_none _)
    · rw [there same]
      refine accounted.used n l' made fun pending => same ?_
      obtain rfl := Option.some.inj pending
      rw [Option.some.inj (made.symm.trans found)]

/-- What is appended refers to the label of its instruction. -/
theorem put {i : Instr RawText} {pieces : List Piece} (count : Nat) (error : Option Error)
    (accounted : Accounted done i.label? a)
    (refers : ∀ n, i.label? = some n →
      ∃ l, a.labels.lookup n = some l ∧ ∃ p ∈ pieces, br.Formed p ∧ p.target = some (some l)) :
    Accounted (done ++ [i]) none
      ⟨⟨pieces.foldl br.put a.assembler.state, count, error⟩, a.labels⟩ := by
  refine ⟨known_append accounted.known fun n labelled => ?_, fun n l made => ?_, accounted.apart,
    fun n l made place => ?_, fun n l made _ => ?_⟩
  · obtain ⟨l, found, -⟩ := refers n labelled
    exact ⟨l, found⟩
  · show l.id < (pieces.foldl br.put a.assembler.state).labels.size
    rw [Branching.labels_putAll]
    exact accounted.made n l made
  · rw [Call.place_putAll] at place
    exact List.mem_append_left _ (accounted.placed n l made place)
  · rw [Call.place_putAll]
    by_cases here : i.label? = some n
    · obtain ⟨l', found, p, member, formed, target⟩ := refers n here
      obtain rfl := Option.some.inj (found.symm.trans made)
      obtain ⟨f, new, label, -⟩ := Branching.exists_fixup_of_putAll member formed target _
      exact .inr ⟨f, new, label⟩
    · rcases accounted.used n l made here with place | ⟨f, member, label⟩
      · exact .inl place
      · exact .inr ⟨f, Branching.mem_fixups_putAll member _, label⟩

theorem refer (lays : b.Lays br) (accounted : Accounted done none a) (i : Instr RawText) :
    Accounted done i.label? (a.refer b i).2 ∧ ∀ n, i.label? = some n →
      ∃ l, (a.refer b i).2.labels.lookup n = some l ∧ (a.refer b i).1 = some l := by
  unfold Assembly.refer
  cases i.label? with
  | none => exact ⟨accounted, nofun⟩
  | some name =>
    obtain ⟨accounted', found⟩ := accounted.label lays name
    refine ⟨accounted', fun n same => ?_⟩
    obtain rfl := Option.some.inj same
    exact ⟨_, found, rfl⟩

theorem issue (lays : b.Lays br) (drafts : b.Drafts br) {i : Instr RawText} {a' : Assembly Buffer}
    (accounted : Accounted done none a) (issued : a.issue b i = (.ok (), a'))
    (clear : a'.assembler.error? = none) : Accounted (done ++ [i]) none a' := by
  obtain ⟨-, planned, s, all, rfl⟩ := issue_eq_ok.1 ⟨issued, clear⟩
  obtain ⟨referred, known⟩ := accounted.refer lays i
  by_cases binding : ∃ name, i = .bind name
  · obtain ⟨name, rfl⟩ := binding
    obtain ⟨l, found, same⟩ := known name rfl
    rw [same] at all
    exact referred.bind _ _ found (lays.bind_of_issueAll.1 all)
  · obtain ⟨outcome, drafted, formed, items, plans, leads⟩ :=
      drafts.instr fun m same => binding ⟨m, same⟩
    rw [items] at all
    obtain ⟨rfl, rfl⟩ := Prod.mk.inj all
    refine referred.put _ _ fun n labelled => ?_
    obtain ⟨l, found, same⟩ := known n labelled
    have jumps := Instr.target?_ne_none (fun m same => binding ⟨m, same⟩) labelled
    obtain ⟨d, member, branch⟩ := leads jumps rfl ((plans _).symm.trans planned)
    refine ⟨l, found, _, List.mem_map_of_mem member, formed d member _, ?_⟩
    rw [Draft.toward, if_pos branch, same]

theorem issueAll? (lays : b.Lays br) (drafts : b.Drafts br) {is : List (Instr RawText)}
    {a' : Assembly Buffer} (accounted : Accounted done none a)
    (issued : a.issueAll? b is = some a') : Accounted (done ++ is) none a' := by
  induction is generalizing a done with
  | nil =>
    obtain rfl := Option.some.inj issued
    rwa [List.append_nil]
  | cons i is ih =>
    obtain ⟨a₁, first, clear, rest⟩ := issueAll?_cons.1 issued
    rw [List.append_cons]
    exact ih (accounted.issue lays drafts first clear) rest

/-- The names of a program that is finished are bound in it. -/
theorem bound_of_finish {c : Bytes} (accounted : Accounted done none a)
    (finished : a.assembler.state.finish.1 = .ok c) {n : RawText} {l : Label}
    (found : a.labels.lookup n = some l) : .bind n ∈ done := by
  refine accounted.placed n l found ?_
  rcases accounted.used n l found (Option.some_ne_none n).symm with place | ⟨f, among, label⟩
  · exact place
  · obtain ⟨t, target⟩ := Buffer.exists_target?_of_patchAll (Buffer.finish_eq_ok.1 finished) f
      (Array.mem_toList_iff.2 among)
    simp only [Buffer.target?, label, Option.bind_eq_bind, Option.bind_some] at target
    obtain ⟨place, made, rfl⟩ := Option.bind_eq_some_iff.1 target
    rw [Call.place, made]
    exact Option.some_ne_none _

end Accounted

/-! ## Moving -/

/-- Labels by their names, behind those of a program that has `k` labels. -/
def movedLabels (k : Nat) (labels : List (RawText × Label)) : List (RawText × Label) :=
  labels.map fun entry => (entry.1, entry.2.moved k)

theorem lookup_movedLabels (k : Nat) (labels : List (RawText × Label)) (n : RawText) :
    (movedLabels k labels).lookup n = (labels.lookup n).map (Label.moved k) := by
  induction labels with
  | nil => rfl
  | cons entry labels ih =>
    obtain ⟨name, l⟩ := entry
    show List.lookup n ((name, l.moved k) :: movedLabels k labels) = _
    rw [lookup_cons, lookup_cons, ih]
    split <;> rfl

/-- The assembly `c` is `a` behind a program with its own labels. -/
structure Joined (base : Assembly Buffer) (a c : Assembly Buffer) : Prop where
  state : c.assembler.state = base.assembler.state.join a.assembler.state
  labels : c.labels = movedLabels base.assembler.state.labels.size a.labels ++ base.labels
  error : c.assembler.error? = a.assembler.error?

namespace Joined

variable {base a c : Assembly Buffer}

theorem start (clear : base.assembler.error? = none) : Joined base ⟨.start .empty, []⟩ base :=
  ⟨(Buffer.join_empty _).symm, rfl, clear⟩

theorem lookup (joined : Joined base a c) {name : RawText} (fresh : base.labels.lookup name = none) :
    c.labels.lookup name
      = (a.labels.lookup name).map (Label.moved base.assembler.state.labels.size) := by
  rw [joined.labels, List.lookup_append, fresh, Option.or_none, lookup_movedLabels]

/-- A name that the program in front does not use gets the same label, moved. -/
theorem label (lays : b.Lays br) (joined : Joined base a c) {name : RawText}
    (fresh : base.labels.lookup name = none) :
    (c.label b name).1 = (a.label b name).1.moved base.assembler.state.labels.size ∧
      Joined base (a.label b name).2 (c.label b name).2 := by
  have found := joined.lookup fresh
  cases old : a.labels.lookup name with
  | some l =>
    rw [old] at found
    rw [label_old old, label_old found]
    exact ⟨rfl, joined⟩
  | none =>
    rw [old] at found
    rw [label_new lays old, label_new lays found, joined.state, Buffer.newLabel_join]
    refine ⟨rfl, rfl, ?_, joined.error⟩
    rw [joined.labels]
    rfl

theorem refer (lays : b.Lays br) (joined : Joined base a c) {i : Instr RawText}
    (fresh : ∀ n, i.label? = some n → base.labels.lookup n = none) :
    (c.refer b i).1 = (a.refer b i).1.map (Label.moved base.assembler.state.labels.size) ∧
      Joined base (a.refer b i).2 (c.refer b i).2 := by
  unfold Assembly.refer
  cases labelled : i.label? with
  | none => exact ⟨rfl, joined⟩
  | some name =>
    obtain ⟨same, joined'⟩ := joined.label lays (fresh name labelled)
    exact ⟨congrArg some same, joined'⟩

/-- What an instruction does, it does behind another program. -/
theorem issue (lays : b.Lays br) (drafts : b.Drafts br) (joined : Joined base a c)
    {i : Instr RawText} (fresh : ∀ n, i.label? = some n → base.labels.lookup n = none)
    {a' : Assembly Buffer} (issued : a.issue b i = (.ok (), a'))
    (clear : a'.assembler.error? = none) :
    ∃ c', c.issue b i = (.ok (), c') ∧ c'.assembler.error? = none ∧ Joined base a' c' := by
  obtain ⟨kept, planned, s, all, rfl⟩ := issue_eq_ok.1 ⟨issued, clear⟩
  obtain ⟨same, joined'⟩ := joined.refer lays fresh
  have moves : (b.lower (i.mapLabel fun _ => (c.refer b i).1)).outcome = .ok () ∧
      b.issueAll (b.lower (i.mapLabel fun _ => (c.refer b i).1)).items (c.refer b i).2.assembler.state
        = (.ok (), base.assembler.state.join s) := by
    rw [joined'.state, same]
    by_cases binding : ∃ name, i = .bind name
    · obtain ⟨name, rfl⟩ := binding
      have bound := lays.bind_of_issueAll.1 all
      refine ⟨rfl, lays.bind_of_issueAll.2 ?_⟩
      have moved := base.assembler.state.bind_join (a.refer b (.bind name)).2.assembler.state
        (a.label b name).1
      rw [show (a.refer b (.bind name)).1 = some (a.label b name).1 from rfl] at bound ⊢
      rw [Option.map_some, moved, bound]
      rfl
    · obtain ⟨outcome, drafted, -, items, plans, -⟩ :=
        drafts.instr fun m same => binding ⟨m, same⟩
      rw [items] at all
      obtain ⟨rfl, rfl⟩ := Prod.mk.inj all
      refine ⟨(plans _).trans ((plans _).symm.trans planned), ?_⟩
      rw [items, Draft.map_toward_moved, Branching.putAll_join]
  refine ⟨_, (issue_eq_ok.2 ⟨joined.error.trans kept, moves.1, _, moves.2, rfl⟩).1, rfl, rfl, ?_, rfl⟩
  exact joined'.labels

theorem issueAll? (lays : b.Lays br) (drafts : b.Drafts br) {is : List (Instr RawText)}
    (joined : Joined base a c)
    (fresh : ∀ i ∈ is, ∀ n, i.label? = some n → base.labels.lookup n = none)
    {a' : Assembly Buffer} (issued : a.issueAll? b is = some a') :
    ∃ c', c.issueAll? b is = some c' ∧ Joined base a' c' := by
  induction is generalizing a c with
  | nil =>
    obtain rfl := Option.some.inj issued
    exact ⟨c, rfl, joined⟩
  | cons i is ih =>
    obtain ⟨here, later⟩ := List.forall_mem_cons.1 fresh
    obtain ⟨a₁, first, clear, rest⟩ := issueAll?_cons.1 issued
    obtain ⟨c₁, first', clear', joined'⟩ := joined.issue lays drafts here first clear
    obtain ⟨c', rest', joined''⟩ := ih joined' later rest
    exact ⟨c', issueAll?_cons.2 ⟨c₁, first', clear', rest'⟩, joined''⟩

end Joined

end Assembly

/-! ## Encoding -/

/-- The names that a listing binds. -/
def Listing.bound (l : Listing) : List RawText := l.lines.flatMap Line.labels ++ l.tail

/-- A computation gives no instruction that binds a label. -/
def Unbinding (x : Except Fault (Instr RawText)) : Prop := ∀ i n, x = .ok i → i ≠ .bind n

namespace Unbinding

theorem ok {i : Instr RawText} (other : ∀ n, i ≠ .bind n) : Unbinding (.ok i) := by
  intro j n same
  rw [← Except.ok.inj same]
  exact other n

theorem error (f : Fault) : Unbinding (.error f) := by
  intro i n same
  cases same

theorem bind {α : Type} {x : Except Fault α} {f : α → Except Fault (Instr RawText)}
    (rest : ∀ a, Unbinding (f a)) : Unbinding (x >>= f) := by
  intro i n done
  obtain ⟨a, -, found⟩ := bind_eq_ok.1 done
  exact rest a i n found

end Unbinding

namespace Line

theorem unbinding_baseInstr (l : Line) : Unbinding l.baseInstr := by
  unfold baseInstr
  dsimp only
  split
  · exact .ok nofun
  · exact .bind fun _ => .bind fun _ => .ok nofun
  · exact .bind fun _ => .bind fun _ => .ok nofun
  · split
    · exact .error _
    · refine .bind fun _ => ?_
      split
      iterate 5 exact .bind fun _ => .ok nofun
      iterate 2
        refine .bind fun _ => ?_
        split
        · exact .ok nofun
        · exact .error _
      exact .error _

theorem unbinding_vectorInstr (bits : Nat) (l : Line) : Unbinding (l.vectorInstr bits) := by
  have operation (op : Op) (e : Elem) (d x : Reg) (y : Operand) (n : RawText) :
      Instr.ofOp op e d x y ≠ .bind n := by
    cases op <;> exact nofun
  unfold vectorInstr
  dsimp only
  split
  · split
    · exact .error _
    · exact .bind fun _ => .bind fun _ => .ok nofun
  · exact .bind fun _ => .ok nofun
  · refine .bind fun _ => ?_
    split
    · exact .error _
    · exact .bind fun _ => .ok nofun
  · refine .bind fun _ => ?_
    split
    · exact .bind fun _ => .ok nofun
    · exact .ok nofun
  · split
    · exact .error _
    · refine .bind fun _ => ?_
      split
      · exact .bind fun _ => .bind fun _ => .ok (operation _ _ _ _ _)
      · exact .bind fun _ => .ok (operation _ _ _ _ _)

/-- Lines hold instructions that do not bind; labels are bound in front of them. -/
theorem instr_ne_bind {bits : Nat} {l : Line} {i : Instr RawText} (found : l.instr bits = .ok i)
    (n : RawText) : i ≠ .bind n := by
  unfold instr at found
  split at found
  · exact unbinding_baseInstr l i n found
  · exact unbinding_vectorInstr bits l i n found

end Line

theorem Line.mem_labels_of_instrs {bits : Nat} {ls : List Line} {is : List (Instr RawText)}
    (spelled : Line.instrs bits ls = .ok is) {n : RawText} (member : .bind n ∈ is) :
    n ∈ ls.flatMap Line.labels := by
  induction ls generalizing is with
  | nil =>
    obtain rfl := Except.ok.inj spelled
    cases member
  | cons l ls ih =>
    obtain ⟨i, is, found, rest, rfl⟩ := Line.instrs_cons.1 spelled
    rw [List.flatMap_cons]
    rcases List.mem_append.1 member with label | later
    · obtain ⟨m, among, same⟩ := List.mem_map.1 label
      rw [← Instr.bind.inj same]
      exact List.mem_append_left _ among
    · rcases List.mem_cons.1 later with rfl | later
      · exact absurd rfl (Line.instr_ne_bind found n)
      · exact List.mem_append_right _ (ih rest later)

theorem Listing.mem_bound {bits : Nat} {l : Listing} {is : List (Instr RawText)}
    (spelled : l.instrs bits = .ok is) {n : RawText} (member : .bind n ∈ is) : n ∈ l.bound := by
  obtain ⟨is, lines, rfl⟩ := instrs_eq_ok.1 spelled
  rcases List.mem_append.1 member with early | late
  · exact List.mem_append_left _ (Line.mem_labels_of_instrs lines early)
  · obtain ⟨m, among, same⟩ := List.mem_map.1 late
    rw [← Instr.bind.inj same]
    exact List.mem_append_right _ among

/-- Both encoders append pieces, and leave labels open. -/
theorem encoder?_lays {cfg : Config} {b : Backend Buffer} (found : encoder? cfg = .ok b) :
    ∃ br, b.Lays br ∧ b.Drafts br := by
  have mips (found : Msa.backend? cfg = .ok b) : ∃ br, b.Lays br ∧ b.Drafts br := by
    obtain rfl := Msa.eq_of_backend? found
    exact ⟨.mips, Msa.lays cfg, Msa.drafts cfg⟩
  unfold encoder? at found
  split at found
  · obtain rfl := X86.eq_of_backend? found
    exact ⟨.x86, X86.lays cfg, X86.drafts cfg⟩
  · exact mips found
  · exact mips found
  · cases found

/-- A listing behind another is encoded as it is on its own: the code is that of both. -/
theorem encode_append {cfg : Config} {p q : RawText} {c d : Bytes} (first : encode cfg p = .ok c)
    (second : encode cfg q = .ok d)
    (apart : ∀ l l', Listing.parse p = .ok l → Listing.parse q = .ok l' → ∀ n ∈ l.bound, n ∉ l'.bound) :
    encode cfg (p ++ .char '\n' :: q) = .ok (c ++ d) := by
  obtain ⟨b, l, is, a, found, read, spelled, issued, finished⟩ := encode_eq_ok.1 first
  obtain ⟨b', l', js, a', found', read', spelled', issued', finished'⟩ := encode_eq_ok.1 second
  obtain rfl := Except.ok.inj (found.symm.trans found')
  obtain ⟨br, lays, drafts⟩ := encoder?_lays found
  rw [lays.finish] at finished finished'
  have front := Assembly.Accounted.start.issueAll? lays drafts issued
  have behind := Assembly.Accounted.start.issueAll? lays drafts issued'
  have fresh : ∀ j ∈ js, ∀ n, j.label? = some n → a.labels.lookup n = none := by
    intro j member n labelled
    obtain ⟨m, known⟩ := behind.known j member n labelled
    cases used : a.labels.lookup n with
    | none => rfl
    | some m' =>
      refine absurd (Listing.mem_bound spelled' (behind.bound_of_finish finished' known)) ?_
      exact apart l l' read read' n (Listing.mem_bound spelled (front.bound_of_finish finished used))
  have clear := Assembly.clear_of_issueAll? rfl issued
  obtain ⟨a'', issued'', joined⟩ := (Assembly.Joined.start clear).issueAll? lays drafts fresh issued'
  obtain ⟨both, read'', spelled''⟩ := Listing.parse_append read read'
  refine encode_eq_ok.2 ⟨b, both, is ++ js, a'', found, read'', spelled'' _ _ _ spelled spelled',
    Assembly.issueAll?_append.2 ⟨a, issued, issued''⟩, ?_⟩
  rw [lays.finish, joined.state]
  exact Buffer.finish_join _ finished finished'

/-- A jump ahead to a label at the end, and behind it a jump back to itself. -/
theorem encode_append_loop :
    encode (.x86 Level.sse2 "sse2" "128x2" 16 2)
      (RawText.ofString "jmpxx_lb on\non:" ++ .char '\n' :: RawText.ofString "up:jmpxx_lb up")
      = .ok (#[0xE9, 0, 0, 0, 0] ++ #[0xE9, 0xFB, 0xFF, 0xFF, 0xFF]) := by
  have front : Listing.parse (.ofString "jmpxx_lb on\non:")
      = .ok ⟨[⟨1, [], ⟨.jmp, .x, .unsigned, .lb⟩, [], .none, .eq, .ofString "on"⟩],
        [.ofString "on"]⟩ := by
    decide +kernel
  have behind : Listing.parse (.ofString "up:jmpxx_lb up")
      = .ok ⟨[⟨1, [.ofString "up"], ⟨.jmp, .x, .unsigned, .lb⟩, [], .none, .eq, .ofString "up"⟩],
        []⟩ := by
    decide +kernel
  refine encode_append ?_ ?_ fun l l' read read' => ?_
  · rw [encode, front]
    rfl
  · rw [encode, behind]
    rfl
  · obtain rfl := Except.ok.inj (front.symm.trans read)
    obtain rfl := Except.ok.inj (behind.symm.trans read')
    decide

end LaneAsm
