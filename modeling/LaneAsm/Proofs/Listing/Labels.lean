import LaneAsm.Catalog.BuiltIn
import LaneAsm.Proofs.Ledger

/-!
The labels of listings. While a listing is issued, the names bound so far and the names jumped to so
far say all that the backend knows about its labels (`Assembly.Kept`). So a line can fail in three ways
only, each known without the backend (`Line.Trouble`): it spells no instruction, it binds a name a
second time, or its instruction is refused. Where every instruction is accepted, a listing is issued
exactly when the names it binds are distinct, and finished exactly when it jumps to bound names within
reach (`listing_labels`).
-/
namespace LaneAsm

variable {σ : Type} {b : Backend σ}

/-! ## Issuing over names -/

namespace Assembler

/-- A trap is no error to be kept. -/
theorem issue_trapped {a : Assembler σ} {i : Instr LabelRef} (clear : a.error? = none)
    (ended : (b.perform i a.state).1 = .error .trap) : (a.issue b i).1 = .error .trap := by
  simp only [Backend.perform] at ended
  simp only [issue, clear, ended]

end Assembler

namespace Assembly

/-- With an error kept, nothing more is issued. -/
theorem issue_kept {a : Assembly σ} {e : Error} (kept : a.assembler.error? = some e)
    (i : Instr RawText) : ∃ a', a.issue b i = (.ok (), a') ∧ a'.assembler.error? = some e := by
  have kept : (a.refer b i).2.assembler.error? = some e := (error?_refer b a i).trans kept
  rw [issue_eq, Assembler.issue_kept kept]
  exact ⟨_, rfl, kept⟩

theorem bindAll_kept {a : Assembly σ} {e : Error} (kept : a.assembler.error? = some e)
    (names : List RawText) : ∃ a', a.bindAll b names = (.ok (), a') ∧ a'.assembler.error? = some e := by
  induction names generalizing a with
  | nil => exact ⟨a, rfl, kept⟩
  | cons name names ih =>
    obtain ⟨a₁, issued, kept₁⟩ := issue_kept kept (.bind name)
    rw [bindAll, issued]
    exact ih kept₁

/-- The assembly of a listing knows its labels by their names: those that are `seen` are bound, and
those that are `wanted` are referred to. -/
structure Kept (g : Ledger b) (seen wanted : List RawText) (count : Nat) (a : Assembly σ) : Prop where
  sound : g.Sound a.assembler.state
  clear : a.assembler.error? = none
  count : a.assembler.count = count
  made : ∀ n l, a.labels.lookup n = some l → l.id < g.size a.assembler.state ∧ l.name = n
  apart : ∀ n m l l', a.labels.lookup n = some l → a.labels.lookup m = some l' → l.id = l'.id → n = m
  bound : ∀ n l, a.labels.lookup n = some l → (g.Bound a.assembler.state l ↔ n ∈ seen)
  known : ∀ n, n ∈ seen ∨ n ∈ wanted → ∃ l, a.labels.lookup n = some l
  refers : ∀ r, g.Refers a.assembler.state r ↔ ∃ n ∈ wanted, ∃ l, a.labels.lookup n = some l ∧ r = some l

namespace Kept

variable {g : Ledger b} {seen wanted : List RawText} {count : Nat} {a : Assembly σ}

theorem start (law : g.Lawful) : Kept g [] [] 0 ⟨.start g.fresh, []⟩ where
  sound := law.fresh.1
  clear := rfl
  count := rfl
  made n l found := by cases found
  apart n m l l' found := by cases found
  bound n l found := by cases found
  known n member := by simp at member
  refers r := by
    refine iff_of_false (law.fresh.2 r) ?_
    rintro ⟨n, member, -⟩
    exact absurd member List.not_mem_nil

/-- Making the label of a name changes nothing of what is bound and referred to. -/
theorem label (law : g.Lawful) (kept : Kept g seen wanted count a) (name : RawText) :
    Kept g seen wanted count (a.label b name).2 ∧
      (a.label b name).2.labels.lookup name = some (a.label b name).1 := by
  cases found : a.labels.lookup name with
  | some l =>
    have same : a.label b name = (l, a) := by simp only [Assembly.label, found]
    rw [same]
    exact ⟨kept, found⟩
  | none =>
    obtain ⟨made, sound, size, bound, refers⟩ := law.newLabel name _ kept.sound
    have same : a.label b name = (⟨name, g.size a.assembler.state⟩,
        ⟨{ a.assembler with state := (b.newLabel name a.assembler.state).2 },
          (name, ⟨name, g.size a.assembler.state⟩) :: a.labels⟩) := by
      simp only [Assembly.label, found, Assembler.newLabel, made]
    rw [same]
    have new : ∀ n, n ∈ seen ∨ n ∈ wanted → n ≠ name := by
      rintro n member rfl
      obtain ⟨l, known⟩ := kept.known n member
      rw [found] at known
      cases known
    have cases_on {n : RawText} {l : Label}
        (looked : List.lookup n ((name, ⟨name, g.size a.assembler.state⟩) :: a.labels) = some l) :
        (n = name ∧ l = ⟨name, g.size a.assembler.state⟩) ∨ a.labels.lookup n = some l := by
      rw [lookup_cons] at looked
      split at looked
      · next same => exact .inl ⟨same, (Option.some.inj looked).symm⟩
      · exact .inr looked
    refine ⟨⟨sound, kept.clear, kept.count, ?_, ?_, ?_, ?_, ?_⟩, by rw [lookup_cons, if_pos rfl]⟩
    · intro n l looked
      rw [size]
      rcases cases_on looked with ⟨rfl, rfl⟩ | old
      · exact ⟨Nat.lt_succ_self _, rfl⟩
      · exact ⟨Nat.lt_succ_of_lt (kept.made n l old).1, (kept.made n l old).2⟩
    · intro n m l l' looked looked' same
      rcases cases_on looked with ⟨rfl, rfl⟩ | old
      · rcases cases_on looked' with ⟨rfl, -⟩ | old'
        · rfl
        · exact absurd same (Nat.ne_of_gt (kept.made m l' old').1)
      · rcases cases_on looked' with ⟨-, rfl⟩ | old'
        · exact absurd same (Nat.ne_of_lt (kept.made n l old).1)
        · exact kept.apart n m l l' old old' same
    · intro n l looked
      rw [bound]
      rcases cases_on looked with ⟨rfl, rfl⟩ | old
      · refine iff_of_false (fun placed => ?_) fun member => new n (.inl member) rfl
        exact absurd (law.made _ _ kept.sound placed) (Nat.lt_irrefl _)
      · exact kept.bound n l old
    · intro n member
      obtain ⟨l, known⟩ := kept.known n member
      exact ⟨l, by rw [lookup_cons, if_neg (new n member), known]⟩
    · intro r
      rw [refers, kept.refers]
      refine exists_congr fun n => and_congr_right fun member => ?_
      rw [lookup_cons, if_neg (new n (.inr member))]

theorem refer (law : g.Lawful) (kept : Kept g seen wanted count a) (i : Instr RawText) :
    Kept g seen wanted count (a.refer b i).2 ∧ ∀ n, i.label? = some n →
      ∃ l, (a.refer b i).2.labels.lookup n = some l ∧ (a.refer b i).1 = some l := by
  unfold Assembly.refer
  cases i.label? with
  | none => exact ⟨kept, fun n labelled => by cases labelled⟩
  | some name =>
    obtain ⟨kept', found⟩ := kept.label law name
    refine ⟨kept', fun n same => ?_⟩
    obtain rfl := Option.some.inj same
    exact ⟨_, found, rfl⟩

/-- A name that was not bound is bound. -/
theorem bind_new (law : g.Lawful) (kept : Kept g seen wanted count a) {name : RawText}
    (new : name ∉ seen) : ∃ a', a.issue b (.bind name) = (.ok (), a') ∧
      Kept g (seen ++ [name]) wanted (count + 1) a' := by
  obtain ⟨referred, known⟩ := kept.refer law (.bind name)
  obtain ⟨l, found, same⟩ := known name rfl
  obtain ⟨made, named⟩ := referred.made name l found
  have unbound := mt (referred.bound name l found).1 new
  obtain ⟨s, issued, sound, size, bound, others, refers⟩ := law.bind l _ referred.sound made unbound
  have performed : b.perform ((Instr.bind name).mapLabel fun _ => (a.refer b (.bind name)).1)
      (a.refer b (.bind name)).2.assembler.state = (.ok (), s) := by
    rw [same]
    exact (b.perform_bind (some l) _).trans issued
  have after := Assembler.issue_performed referred.clear (congrArg Prod.fst performed)
  rw [performed, referred.count] at after
  rw [issue_eq, after]
  refine ⟨_, rfl, sound, rfl, rfl, fun n k looked => ?_, referred.apart, fun n k looked => ?_,
    fun n member => ?_, fun r => ?_⟩
  · show k.id < g.size s ∧ _
    rw [size]
    exact referred.made n k looked
  · show g.Bound s k ↔ _
    rw [List.mem_append, List.mem_singleton]
    by_cases here : n = name
    · subst here
      obtain rfl := Option.some.inj (found.symm.trans looked)
      exact iff_of_true bound (.inr rfl)
    · rw [others k fun equal => here (referred.apart n name k l looked found equal),
        referred.bound n k looked]
      simp [here]
  · rcases member with member | member
    · rcases List.mem_append.1 member with old | last
      · exact referred.known n (.inl old)
      · obtain rfl := List.mem_singleton.1 last
        exact ⟨l, found⟩
    · exact referred.known n (.inr member)
  · exact (refers r).trans (referred.refers r)

/-- A name that was bound cannot be bound again. -/
theorem bind_old (law : g.Lawful) (kept : Kept g seen wanted count a) {name : RawText}
    (old : name ∈ seen) : ∃ a', a.issue b (.bind name) = (.ok (), a') ∧
      a'.assembler.error? = some ⟨[.instruction (count + 1) "label"], .boundTwice name⟩ := by
  obtain ⟨referred, known⟩ := kept.refer law (.bind name)
  obtain ⟨l, found, same⟩ := known name rfl
  have issued := law.bindAgain l _ referred.sound ((referred.bound name l found).2 old)
  obtain rfl := (referred.made name l found).2
  have performed : (b.perform ((Instr.bind l.name).mapLabel fun _ => (a.refer b (.bind l.name)).1)
      (a.refer b (.bind l.name)).2.assembler.state).1 = Fault.fail (.boundTwice l.name) := by
    rw [same]
    exact congrArg Prod.fst ((b.perform_bind (some l) _).trans issued)
  have after := Assembler.issue_failed referred.clear performed
  rw [referred.count] at after
  rw [issue_eq, after]
  exact ⟨_, rfl, rfl⟩

/-- An instruction that is accepted refers to the name that it jumps to. -/
theorem instr (law : g.Lawful) (kept : Kept g seen wanted count a) {i : Instr RawText}
    (other : ∀ n, i ≠ .bind n) (accepted : g.answer i = .ok ()) :
    ∃ a', a.issue b i = (.ok (), a') ∧ Kept g seen (wanted ++ i.target?.toList) (count + 1) a' := by
  obtain ⟨referred, known⟩ := kept.refer law i
  obtain ⟨ended, after⟩ := law.instr i other (a.refer b i).1 _ referred.sound
  obtain ⟨agrees, refers⟩ := after accepted
  have issued := Assembler.issue_performed referred.clear (ended.trans accepted)
  rw [referred.count] at issued
  have target : ∀ n, i.target? = some n →
      ∃ l, (a.refer b i).2.labels.lookup n = some l ∧ (a.refer b i).1 = some l := by
    intro n jumps
    refine known n ?_
    cases i <;> first | exact jumps | cases jumps
  rw [issue_eq, issued]
  refine ⟨_, rfl, agrees.sound, rfl, rfl, fun n l looked => ?_, referred.apart, fun n l looked => ?_,
    fun n member => ?_, fun r => ?_⟩
  · show l.id < g.size _ ∧ _
    rw [agrees.size]
    exact referred.made n l looked
  · exact (agrees.bound l).trans (referred.bound n l looked)
  · rcases member with member | member
    · exact referred.known n (.inl member)
    · rcases List.mem_append.1 member with old | last
      · exact referred.known n (.inr old)
      · obtain ⟨l, found, -⟩ := target n (Option.mem_toList.1 last)
        exact ⟨l, found⟩
  · rw [refers, referred.refers]
    constructor
    · rintro (⟨n, member, l, found, rfl⟩ | ⟨jumps, rfl⟩)
      · exact ⟨n, List.mem_append_left _ member, l, found, rfl⟩
      · obtain ⟨n, jumps⟩ := Option.ne_none_iff_exists'.1 jumps
        obtain ⟨l, found, same⟩ := target n jumps
        exact ⟨n, List.mem_append_right _ (Option.mem_toList.2 jumps), l, found, same⟩
    · rintro ⟨n, member, l, found, rfl⟩
      rcases List.mem_append.1 member with old | last
      · exact .inl ⟨n, old, l, found, rfl⟩
      · have jumps := Option.mem_toList.1 last
        obtain ⟨l', found', same⟩ := target n jumps
        obtain rfl := Option.some.inj (found.symm.trans found')
        exact .inr ⟨by rw [jumps]; exact Option.some_ne_none n, same.symm⟩

/-- An instruction that is refused leaves its error, or traps. -/
theorem instr_refused (law : g.Lawful) (kept : Kept g seen wanted count a) {i : Instr RawText}
    (other : ∀ n, i ≠ .bind n) {f : Fault} (refused : g.answer i = .error f) :
    (∃ e, f = .error e ∧ ∃ a', a.issue b i = (.ok (), a') ∧
      a'.assembler.error? = some (e.within (.instruction (count + 1) i.name))) ∨
      f = .trap ∧ (a.issue b i).1 = .error .trap := by
  obtain ⟨referred, -⟩ := kept.refer law i
  obtain ⟨ended, -⟩ := law.instr i other (a.refer b i).1 _ referred.sound
  have name : (i.mapLabel fun _ => (a.refer b i).1).name = i.name := by
    cases i <;> rfl
  rw [issue_eq]
  cases f with
  | error e =>
    have issued := Assembler.issue_failed referred.clear (ended.trans refused)
    rw [referred.count, name] at issued
    rw [issued]
    exact .inl ⟨e, rfl, _, rfl, rfl⟩
  | trap =>
    exact .inr ⟨rfl, Assembler.issue_trapped referred.clear (ended.trans refused)⟩

end Kept

end Assembly

/-! ## Lines -/

theorem not_nodup_of_mem {seen : List RawText} {n : RawText} (again : n ∈ seen) (rest : List RawText) :
    ¬ (seen ++ n :: rest).Nodup := by
  intro distinct
  exact (List.nodup_append.1 distinct).2.2 n again n List.mem_cons_self rfl

/-- Names are distinct from each other and from those before them, or there is a first that is not. -/
theorem nodup_or_repeated {seen : List RawText} (distinct : seen.Nodup) (names : List RawText) :
    (seen ++ names).Nodup ∨ ∃ front n rest, names = front ++ n :: rest ∧ (seen ++ front).Nodup ∧
      n ∈ seen ++ front := by
  induction names generalizing seen with
  | nil => exact .inl (by rwa [List.append_nil])
  | cons n names ih =>
    by_cases old : n ∈ seen
    · refine .inr ⟨[], n, names, rfl, ?_, ?_⟩
      · rwa [List.append_nil]
      · rwa [List.append_nil]
    · have longer : (seen ++ [n]).Nodup :=
        List.nodup_append.2 ⟨distinct, List.pairwise_singleton _ n, fun m member k last => by
          obtain rfl := List.mem_singleton.1 last
          exact fun same => old (same ▸ member)⟩
      rcases ih longer with all | ⟨front, m, rest, rfl, before, again⟩
      · rw [List.append_assoc] at all
        exact .inl all
      · rw [List.append_assoc] at before again
        exact .inr ⟨n :: front, m, rest, rfl, before, again⟩

/-- The error of a name that is bound again by call number `count`. -/
def repeated (count : Nat) (n : RawText) : Error := ⟨[.instruction count "label"], .boundTwice n⟩

namespace Assembly.Kept

variable {g : Ledger b} {seen wanted : List RawText} {count : Nat} {a : Assembly σ}

theorem bindAll (law : g.Lawful) (kept : Kept g seen wanted count a) {names : List RawText}
    (distinct : (seen ++ names).Nodup) : ∃ a', a.bindAll b names = (.ok (), a') ∧
      Kept g (seen ++ names) wanted (count + names.length) a' := by
  induction names generalizing seen count a with
  | nil => exact ⟨a, rfl, by rwa [List.append_nil]⟩
  | cons name names ih =>
    have new : name ∉ seen := fun old => not_nodup_of_mem old _ distinct
    obtain ⟨a₁, issued, kept₁⟩ := kept.bind_new law new
    rw [List.append_cons] at distinct
    obtain ⟨a', rest, kept'⟩ := ih kept₁ distinct
    refine ⟨a', by rw [Assembly.bindAll, issued]; exact rest, ?_⟩
    rwa [List.append_cons, List.length_cons, Nat.add_comm names.length, ← Nat.add_assoc]

theorem bindAll_repeated (law : g.Lawful) (kept : Kept g seen wanted count a)
    {front : List RawText} {n : RawText} (distinct : (seen ++ front).Nodup)
    (again : n ∈ seen ++ front) (rest : List RawText) :
    ∃ a', a.bindAll b (front ++ n :: rest) = (.ok (), a') ∧
      a'.assembler.error? = some (repeated (count + front.length + 1) n) := by
  induction front generalizing seen count a with
  | nil =>
    rw [List.append_nil] at again
    obtain ⟨a₁, issued, error⟩ := kept.bind_old law again
    rw [List.nil_append, Assembly.bindAll, issued]
    exact bindAll_kept error rest
  | cons name front ih =>
    have new : name ∉ seen := fun old => not_nodup_of_mem old _ distinct
    obtain ⟨a₁, issued, kept₁⟩ := kept.bind_new law new
    rw [List.append_cons] at distinct again
    rw [List.cons_append, Assembly.bindAll, issued, List.length_cons, Nat.add_comm front.length,
      ← Nat.add_assoc]
    exact ih kept₁ distinct again

end Assembly.Kept

namespace Line

/-- A line spells an instruction that the backend accepts. -/
def Accepted (g : Ledger b) (l : Line) (i : Instr RawText) : Prop :=
  l.instr b.config.baseBits = .ok i ∧ g.answer i = .ok ()

/-- What is wrong with a line where some names are bound already, `count` calls on. A line that spells
no instruction is told so even if it binds a name again; the instruction is looked at last. -/
inductive Trouble (g : Ledger b) (seen : List RawText) (count : Nat) (l : Line) : Fault → Prop where
  | spelling {f : Fault} (spelled : l.instr b.config.baseBits = .error f) : Trouble g seen count l f
  | twice {i : Instr RawText} {front rest : List RawText} {n : RawText}
    (spelled : l.instr b.config.baseBits = .ok i) (labels : l.labels = front ++ n :: rest)
    (distinct : (seen ++ front).Nodup) (again : n ∈ seen ++ front) :
    Trouble g seen count l (.error (repeated (count + front.length + 1) n))
  | refused {i : Instr RawText} {f : Fault} (spelled : l.instr b.config.baseBits = .ok i)
    (distinct : (seen ++ l.labels).Nodup) (answer : g.answer i = .error f) :
    Trouble g seen count l (f.within (.instruction (count + l.labels.length + 1) i.name))

end Line

namespace Assembly.Kept

variable {g : Ledger b} {seen wanted : List RawText} {count : Nat} {a : Assembly σ}

/-- A line is issued, or there is something wrong with it. -/
theorem line (law : g.Lawful) (kept : Kept g seen wanted count a) (distinct : seen.Nodup) (l : Line) :
    (∃ i a', l.Accepted g i ∧ (seen ++ l.labels).Nodup ∧ a.line b l = (.ok (), a') ∧
      Kept g (seen ++ l.labels) (wanted ++ i.target?.toList) (count + (l.labels.length + 1)) a') ∨
    ∃ f, l.Trouble g seen count f ∧ (a.line b l).1 = .error f := by
  rcases nodup_or_repeated distinct l.labels with all | ⟨front, n, rest, labels, before, again⟩
  · obtain ⟨a₁, bound, kept₁⟩ := kept.bindAll law all
    cases spelled : l.instr b.config.baseBits with
    | error f =>
      refine .inr ⟨f, .spelling spelled, ?_⟩
      simp only [Assembly.line, bound, spelled]
    | ok i =>
      have other := Line.instr_ne_bind spelled
      cases answer : g.answer i with
      | ok u =>
        obtain ⟨a', issued, kept'⟩ := kept₁.instr law other answer
        refine .inl ⟨i, a', ⟨spelled, answer⟩, all, ?_, kept'⟩
        simp only [Assembly.line, bound, spelled, issued, status_eq_ok.2 kept'.clear]
      | error f =>
        refine .inr ⟨_, .refused spelled all answer, ?_⟩
        rcases kept₁.instr_refused law other answer with ⟨e, rfl, a', issued, error⟩ | ⟨rfl, trapped⟩
        · simp only [Assembly.line, bound, spelled, issued, status, error]
          rfl
        · have issued : a₁.issue b i = (.error .trap, (a₁.issue b i).2) := Prod.ext trapped rfl
          rw [Assembly.line, bound, spelled]
          simp only
          rw [issued]
          rfl
  · obtain ⟨a₁, bound, error⟩ := kept.bindAll_repeated law before again rest
    rw [← labels] at bound
    cases spelled : l.instr b.config.baseBits with
    | error f =>
      refine .inr ⟨f, .spelling spelled, ?_⟩
      simp only [Assembly.line, bound, spelled]
    | ok i =>
      obtain ⟨a', issued, error'⟩ := issue_kept (b := b) error i
      refine .inr ⟨_, .twice spelled labels before again, ?_⟩
      simp only [Assembly.line, bound, spelled, issued, status, error']

end Assembly.Kept

namespace Line

/-- The names that lines jump to; base registers have `bits`. -/
def targets (bits : Nat) (ls : List Line) : List RawText :=
  ls.filterMap fun l => (l.instr bits).toOption.bind Instr.target?

/-- How many calls issue lines: one for each label, and one for the instruction of each line. -/
def calls : List Line → Nat
  | [] => 0
  | l :: ls => l.labels.length + 1 + calls ls

theorem targets_cons {bits : Nat} {l : Line} {i : Instr RawText} (spelled : l.instr bits = .ok i)
    (ls : List Line) : targets bits (l :: ls) = i.target?.toList ++ targets bits ls := by
  have jumps : (l.instr bits).toOption.bind Instr.target? = i.target? := by
    rw [spelled]
    rfl
  rw [targets, List.filterMap_cons, jumps]
  cases i.target? <;> rfl

/-- An accepted line can only bind a name again. -/
theorem Trouble.twice_of_accepted {g : Ledger b} {seen : List RawText} {count : Nat} {l : Line}
    {f : Fault} (trouble : l.Trouble g seen count f) (accepted : ∃ i, l.Accepted g i) :
    ∃ front n rest, l.labels = front ++ n :: rest ∧ (seen ++ front).Nodup ∧ n ∈ seen ++ front ∧
      f = .error (repeated (count + front.length + 1) n) := by
  obtain ⟨i, spelled, answer⟩ := accepted
  cases trouble with
  | spelling wrong =>
    rw [spelled] at wrong
    cases wrong
  | twice _ labels distinct again => exact ⟨_, _, _, labels, distinct, again, rfl⟩
  | refused same _ refused =>
    obtain rfl := Except.ok.inj (same.symm.trans spelled)
    rw [answer] at refused
    cases refused

end Line

namespace Assembly.Kept

variable {g : Ledger b} {seen wanted : List RawText} {count : Nat} {a : Assembly σ}

/-- Lines are issued, or there is a first that something is wrong with. -/
theorem lines (law : g.Lawful) (kept : Kept g seen wanted count a) (distinct : seen.Nodup)
    (ls : List Line) :
    ((∀ l ∈ ls, ∃ i, l.Accepted g i) ∧ (seen ++ ls.flatMap Line.labels).Nodup ∧
      ∃ a', a.lines b ls = (.ok (), a') ∧ Kept g (seen ++ ls.flatMap Line.labels)
        (wanted ++ Line.targets b.config.baseBits ls) (count + Line.calls ls) a') ∨
    ∃ before l after f, ls = before ++ l :: after ∧ (∀ l ∈ before, ∃ i, l.Accepted g i) ∧
      (seen ++ before.flatMap Line.labels).Nodup ∧
      l.Trouble g (seen ++ before.flatMap Line.labels) (count + Line.calls before) f ∧
      (a.lines b ls).1 = .error (f.within (.line l.number)) := by
  induction ls generalizing seen wanted count a with
  | nil =>
    refine .inl ⟨List.forall_mem_nil _, by rwa [List.flatMap_nil, List.append_nil], a, rfl, ?_⟩
    show Kept g (seen ++ []) (wanted ++ []) count a
    rwa [List.append_nil, List.append_nil]
  | cons l ls ih =>
    rcases kept.line law distinct l with ⟨i, a₁, accepted, here, issued, kept₁⟩ | ⟨f, trouble, failed⟩
    · have unfolded : a.lines b (l :: ls) = a₁.lines b ls := by rw [Assembly.lines, issued]
      rw [unfolded]
      rcases ih kept₁ here with ⟨all, apart, a', done, kept'⟩ |
        ⟨before, l', after, f, rfl, all, apart, trouble, failed⟩
      · rw [List.append_assoc] at apart
        refine .inl ⟨List.forall_mem_cons.2 ⟨⟨i, accepted⟩, all⟩, apart, a', done, ?_⟩
        rwa [List.append_assoc, List.append_assoc, Nat.add_assoc, ← Line.targets_cons accepted.1] at kept'
      · rw [List.append_assoc] at apart trouble
        rw [Nat.add_assoc] at trouble
        exact .inr ⟨l :: before, l', after, f, rfl, List.forall_mem_cons.2 ⟨⟨i, accepted⟩, all⟩, apart,
          trouble, failed⟩
    · refine .inr ⟨[], l, ls, f, rfl, List.forall_mem_nil _, ?_, ?_, ?_⟩
      · rwa [List.flatMap_nil, List.append_nil]
      · rwa [List.flatMap_nil, List.append_nil]
      · have ended : a.line b l = (.error f, (a.line b l).2) := Prod.ext failed rfl
        rw [Assembly.lines, ended]

/-- Finishing looks at the names that are jumped to. -/
theorem finish (law : g.Lawful) (kept : Kept g seen wanted count a) :
    ((∃ c, (a.assembler.code b).1 = .ok c) ∧ (∀ n ∈ wanted, n ∈ seen) ∧ g.Near a.assembler.state) ∨
    (∃ n ∈ wanted, n ∉ seen ∧ (a.assembler.code b).1 = Fault.fail (.neverBound n)) ∨
    ∃ c : Cause, ¬ g.Near a.assembler.state ∧ c.kind? = some .branchRange ∧
      (a.assembler.code b).1 = Fault.fail c := by
  have code : (a.assembler.code b).1 = (b.finish a.assembler.state).1 := by
    simp only [Assembler.code, kept.clear]
  have named : ∀ r, g.Refers a.assembler.state r → r ≠ none := by
    intro r refers
    obtain ⟨n, -, l, -, rfl⟩ := (kept.refers r).1 refers
    exact Option.some_ne_none l
  rw [code]
  rcases law.finish _ kept.sound named with ⟨done, bound, near⟩ | ⟨l, refers, unbound, failed⟩ | far
  · refine .inl ⟨done, fun n member => ?_, near⟩
    obtain ⟨l, found⟩ := kept.known n (.inr member)
    exact (kept.bound n l found).1 (bound l ((kept.refers _).2 ⟨n, member, l, found, rfl⟩))
  · obtain ⟨n, member, k, found, same⟩ := (kept.refers _).1 refers
    obtain rfl := Option.some.inj same
    rw [(kept.made n l found).2] at failed
    exact .inr (.inl ⟨n, member, mt (kept.bound n l found).2 unbound, failed⟩)
  · exact .inr (.inr far)

end Assembly.Kept

/-! ## Listings -/

namespace Listing

/-- The listing without its labels. A jump to a name that nothing binds is issued all the same. -/
def unlabelled (l : Listing) : Listing := ⟨l.lines.map fun line => { line with labels := [] }, []⟩

/-- The names that a listing jumps to; base registers have `bits`. -/
def targets (bits : Nat) (l : Listing) : List RawText := Line.targets bits l.lines

/-- A listing has a first name that it binds again, and this is the error: it names the call, and the
line where there is an instruction behind the label. -/
inductive Repeats (l : Listing) : Error → Prop where
  | line {before after : List Line} {line : Line} {front rest : List RawText} {n : RawText}
    (lines : l.lines = before ++ line :: after) (labels : line.labels = front ++ n :: rest)
    (distinct : (before.flatMap Line.labels ++ front).Nodup)
    (again : n ∈ before.flatMap Line.labels ++ front) :
    Repeats l ((repeated (Line.calls before + front.length + 1) n).within (.line line.number))
  | tail {front rest : List RawText} {n : RawText} (labels : l.tail = front ++ n :: rest)
    (distinct : (l.lines.flatMap Line.labels ++ front).Nodup)
    (again : n ∈ l.lines.flatMap Line.labels ++ front) :
    Repeats l (repeated (Line.calls l.lines + front.length + 1) n)

theorem Repeats.kind {l : Listing} {e : Error} (repeats : l.Repeats e) : e.kind? = some .label := by
  cases repeats <;> rfl

theorem Repeats.not_nodup {l : Listing} {e : Error} (repeats : l.Repeats e) : ¬ l.bound.Nodup := by
  unfold bound
  cases repeats with
  | @line before after line front rest n lines labels distinct again =>
    rw [lines, List.flatMap_append, List.flatMap_cons, labels]
    intro all
    refine not_nodup_of_mem again (rest ++ after.flatMap Line.labels ++ l.tail) ?_
    simpa using all
  | tail labels distinct again =>
    rw [labels, ← List.append_assoc]
    exact not_nodup_of_mem again _

variable {g : Ledger b}

/-- A listing is issued with the names that it binds and jumps to, or stops at a line that something is
wrong with, or binds a name again behind its last line. -/
theorem assemble_cases (law : g.Lawful) (l : Listing) :
    ((∀ line ∈ l.lines, ∃ i, line.Accepted g i) ∧ l.bound.Nodup ∧ ∃ a,
      l.assemble b (.start g.fresh) = (.ok (), a.assembler) ∧
      Assembly.Kept g l.bound (l.targets b.config.baseBits) (Line.calls l.lines + l.tail.length) a) ∨
    (∃ before line after f, l.lines = before ++ line :: after ∧
      (∀ line ∈ before, ∃ i, line.Accepted g i) ∧ (before.flatMap Line.labels).Nodup ∧
      line.Trouble g (before.flatMap Line.labels) (Line.calls before) f ∧
      (l.assemble b (.start g.fresh)).1 = .error (f.within (.line line.number))) ∨
    ∃ e, (∀ line ∈ l.lines, ∃ i, line.Accepted g i) ∧ l.Repeats e ∧
      (l.assemble b (.start g.fresh)).1 = .error (.error e) := by
  have lines := (Assembly.Kept.start law).lines law List.nodup_nil l.lines
  simp only [List.nil_append, Nat.zero_add] at lines
  rcases lines with ⟨all, distinct, a₁, done, kept⟩ |
    ⟨before, line, after, f, split, all, apart, trouble, failed⟩
  · rcases nodup_or_repeated distinct l.tail with apart | ⟨front, n, rest, labels, apart, again⟩
    · obtain ⟨a, bound, kept'⟩ := kept.bindAll law apart
      refine .inl ⟨all, apart, a, ?_, kept'⟩
      simp only [assemble, done, bound, Assembly.status_eq_ok.2 kept'.clear]
    · obtain ⟨a, bound, error⟩ := kept.bindAll_repeated law apart again rest
      refine .inr (.inr ⟨_, all, .tail labels apart again, ?_⟩)
      rw [← labels] at bound
      simp only [assemble, done, bound, Assembly.status, error]
  · refine .inr (.inl ⟨before, line, after, f, split, all, apart, trouble, ?_⟩)
    have ended : Assembly.lines b ⟨.start g.fresh, []⟩ l.lines = (.error (f.within (.line line.number)),
      (Assembly.lines b ⟨.start g.fresh, []⟩ l.lines).2) := Prod.ext failed rfl
    rw [assemble, ended]

theorem accepted_of_unlabelled (law : g.Lawful) {l : Listing}
    (issued : (l.unlabelled.assemble b (.start g.fresh)).1 = .ok ()) :
    ∀ line ∈ l.lines, ∃ i, line.Accepted g i := by
  intro line member
  rcases assemble_cases law l.unlabelled with ⟨all, -⟩ | ⟨_, _, _, _, -, -, -, -, failed⟩ |
    ⟨_, -, -, failed⟩
  · exact all { line with labels := [] } (List.mem_map_of_mem member)
  · rw [issued] at failed
    cases failed
  · rw [issued] at failed
    cases failed

/-- A listing of accepted lines is issued if it binds no name again. -/
theorem assemble_of_accepted (law : g.Lawful) {l : Listing}
    (accepted : ∀ line ∈ l.lines, ∃ i, line.Accepted g i) :
    (l.bound.Nodup ∧ ∃ a, l.assemble b (.start g.fresh) = (.ok (), a.assembler) ∧
      Assembly.Kept g l.bound (l.targets b.config.baseBits) (Line.calls l.lines + l.tail.length) a) ∨
    ∃ e, l.Repeats e ∧ (l.assemble b (.start g.fresh)).1 = .error (.error e) := by
  rcases assemble_cases law l with ⟨-, distinct, issued⟩ |
    ⟨before, line, after, f, lines, -, -, trouble, failed⟩ | ⟨e, -, repeats, failed⟩
  · exact .inl ⟨distinct, issued⟩
  · have member : line ∈ l.lines := by simp [lines]
    obtain ⟨front, n, rest, labels, distinct, again, rfl⟩ :=
      trouble.twice_of_accepted (accepted line member)
    exact .inr ⟨_, .line lines labels distinct again, failed⟩
  · exact .inr ⟨e, repeats, failed⟩

/-- The discipline of labels: how issuing a listing from a program and finishing it depend on the names
that the listing binds and jumps to, where `Near` says that bound labels are in reach. -/
structure Disciplined (b : Backend σ) (start : σ) (Near : σ → Prop) (l : Listing) : Prop where
  assembles : (l.assemble b (.start start)).1 = .ok () ↔ l.bound.Nodup
  finishes : ((l.assemble b (.start start)).1 = .ok () ∧
      ∃ c, ((l.assemble b (.start start)).2.code b).1 = .ok c) ↔
    l.bound.Nodup ∧ (∀ n ∈ l.targets b.config.baseBits, n ∈ l.bound) ∧
      Near (l.assemble b (.start start)).2.state
  /-- A name that is bound again is reported where it is issued. -/
  repeats : ∀ f, (l.assemble b (.start start)).1 = .error f →
    ∃ e, f = .error e ∧ l.Repeats e ∧ e.kind? = some .label
  /-- A name that is missing is reported when the program is finished. -/
  missing : ∀ f, (l.assemble b (.start start)).1 = .ok () →
    ((l.assemble b (.start start)).2.code b).1 = .error f → ∃ e, f = .error e ∧
      ((∃ n ∈ l.targets b.config.baseBits, n ∉ l.bound ∧ e = .ofCause (.neverBound n) ∧
          e.kind? = some .label) ∨
        ¬ Near (l.assemble b (.start start)).2.state ∧ e.kind? = some .branchRange)

theorem disciplined (law : g.Lawful) {l : Listing}
    (issued : (l.unlabelled.assemble b (.start g.fresh)).1 = .ok ()) :
    l.Disciplined b g.fresh g.Near := by
  rcases assemble_of_accepted law (accepted_of_unlabelled law issued) with ⟨distinct, a, done, kept⟩ |
    ⟨e, repeats, failed⟩
  · have ended : (l.assemble b (.start g.fresh)).1 = .ok () := congrArg Prod.fst done
    refine ⟨iff_of_true ended distinct, ?_, fun f failed => ?_, ?_⟩
    · rw [done]
      rcases kept.finish law with ⟨finished, bound, near⟩ | ⟨n, wanted, unbound, failed⟩ |
        ⟨c, far, -, failed⟩
      · exact iff_of_true ⟨rfl, finished⟩ ⟨distinct, bound, near⟩
      · refine iff_of_false ?_ fun ⟨_, bound, _⟩ => unbound (bound n wanted)
        rintro ⟨-, c, finished⟩
        rw [failed] at finished
        cases finished
      · refine iff_of_false ?_ fun ⟨_, _, near⟩ => far near
        rintro ⟨-, c, finished⟩
        rw [failed] at finished
        cases finished
    · rw [ended] at failed
      cases failed
    · rw [done]
      intro f _ fault
      rcases kept.finish law with ⟨⟨c, finished⟩, -⟩ | ⟨n, wanted, unbound, failed⟩ |
        ⟨c, far, kind, failed⟩
      · rw [finished] at fault
        cases fault
      · obtain rfl := Except.error.inj (failed.symm.trans fault)
        exact ⟨_, rfl, .inl ⟨n, wanted, unbound, rfl, rfl⟩⟩
      · obtain rfl := Except.error.inj (failed.symm.trans fault)
        exact ⟨_, rfl, .inr ⟨far, kind⟩⟩
  · have ended : (l.assemble b (.start g.fresh)).1 ≠ .ok () := by
      rw [failed]
      simp
    refine ⟨iff_of_false ended repeats.not_nodup, ?_, fun f fault => ?_, fun f done => absurd done ended⟩
    · exact iff_of_false (fun done => ended done.1) fun names => repeats.not_nodup names.1
    · obtain rfl := Except.error.inj (failed.symm.trans fault)
      exact ⟨e, rfl, repeats, repeats.kind⟩

end Listing

theorem Branching.lawful (br : Branching) (cfg : Config) : (br.ledger (br.backend cfg)).Lawful := by
  cases br with
  | x86 => exact (X86.lays cfg).lawful (X86.drafts cfg)
  | mips => exact (Msa.lays cfg).lawful (Msa.drafts cfg)

/-- The discipline of labels is the same for encoders and for recorded programs, but that an encoder has
distances to keep. For a listing that is issued without its labels, the names decide. -/
theorem listing_labels (l : Listing) :
    (∀ (br : Branching) (cfg : Config),
      (l.unlabelled.assemble (br.backend cfg) (.start .empty)).1 = .ok () →
      l.Disciplined (br.backend cfg) .empty fun s => ∀ f ∈ s.fixups, br.Near s.labels f) ∧
    ∀ (cfg : Config) (limits : Limits),
      (l.unlabelled.assemble (Program.backend cfg limits) (.start .empty)).1 = .ok () →
      l.Disciplined (Program.backend cfg limits) .empty fun _ => True := by
  constructor
  · intro br cfg issued
    exact Listing.disciplined (br.lawful cfg) issued
  · intro cfg limits issued
    exact Listing.disciplined (Program.lawful cfg limits) issued

/-- A jump ahead and one back. With both names bound once the program is finished; with the first bound
again at the end the listing is not issued; with the second bound nowhere it is issued but not
finished. -/
theorem listing_labels_loop :
    let top : RawText := .ofString "top"
    let on : RawText := .ofString "on"
    let jump (number : Nat) (labels : List RawText) (target : RawText) : Line :=
      ⟨number, labels, ⟨.jmp, .x, .unsigned, .lb⟩, [], .none, .eq, target⟩
    let loop (tail : List RawText) : Listing := ⟨[jump 1 [top] on, jump 2 [] top], tail⟩
    let cfg : Config := .x86 Level.sse2 "sse2" "128" 16 1
    let recorded := (loop [on]).assemble (Program.backend cfg .none) (.start .empty)
    let twice := (loop [on, top]).assemble (Branching.x86.backend cfg) (.start .empty)
    let open? := (loop []).assemble (Branching.mips.backend cfg) (.start .empty)
    (∃ c, (recorded.2.code (Program.backend cfg .none)).1 = .ok c) ∧
    (twice.1 ≠ .ok () ∧ ∀ f, twice.1 = .error f → ∃ e, f = .error e ∧ (loop [on, top]).Repeats e) ∧
    open?.1 = .ok () ∧ ∀ c, (open?.2.code (Branching.mips.backend cfg)).1 ≠ .ok c := by
  intro top on jump loop cfg recorded twice open?
  have one := (listing_labels (loop [on])).2 cfg .none rfl
  have two := (listing_labels (loop [on, top])).1 .x86 cfg rfl
  have three := (listing_labels (loop [])).1 .mips cfg rfl
  have issued := three.assembles.2 (by decide)
  refine ⟨?_, ⟨?_, fun f failed => ?_⟩, issued, fun c done => ?_⟩
  · exact (one.finishes.2 ⟨by decide, by decide, trivial⟩).2
  · exact mt two.assembles.1 (by decide)
  · obtain ⟨e, same, repeats, -⟩ := two.repeats f failed
    exact ⟨e, same, repeats⟩
  · have bound := (three.finishes.1 ⟨issued, c, done⟩).2.1
    exact absurd bound (by decide)

end LaneAsm
