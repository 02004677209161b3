import LaneAsm.Catalog.BuiltIn
import LaneAsm.Golden.Diff
import LaneAsm.Proofs.JsonDiff
import Mathlib.Control.Monad.Basic

/-!
Drift of golden vectors and the difference that reports it. A check finds the vectors whose present
code is not the expected one (`Golden.entries_of_check`); after an update there are none
(`Golden.check_update`). The difference knows vectors by their names: under a name it compares the
code of the last vector with what the last drifted one gives now, so it may be empty although vectors
have drifted (`Golden.diff_eq_empty_iff`). Main statement: `drift_seen_unless_hidden`.
-/
namespace LaneAsm

/-! ## One vector -/

namespace GoldenVector

variable {c : Catalog} {v : GoldenVector}

/-- The present code of a vector is not the expected one. -/
def Drifts (c : Catalog) (v : GoldenVector) : Prop := v.encode c ≠ .ok v.code

/-- What a vector gives now: its code, or the error. -/
def shown (c : Catalog) (v : GoldenVector) : String :=
  match v.encode c with
  | .ok code => code
  | .error (.error e) => "error: " ++ e.message
  | .error .trap => ""

/-- The vector with its present code for the expected one. -/
def updated (c : Catalog) (v : GoldenVector) : GoldenVector := { v with code := v.shown c }

/-- The expected code plays no part in the present one. -/
theorem encode_updated (c : Catalog) (v : GoldenVector) : (v.updated c).encode c = v.encode c := rfl

theorem exists_encode_iff : (∃ code, v.encode c = .ok code) ↔ v.encode c = .ok (v.shown c) := by
  constructor
  · rintro ⟨code, present⟩
    simp only [shown, present]
  · exact fun present => ⟨_, present⟩

theorem drift?_of_trap (trap : v.encode c = .error .trap) : v.drift? c = .error .trap := by
  simp only [drift?, trap]

/-- What a check finds of a vector that does not trap. -/
theorem drift?_cases (sound : v.encode c ≠ .error .trap) :
    (v.encode c = .ok v.code ∧ v.drift? c = .ok none) ∨
    (v.Drifts c ∧ ∃ d : Drift, v.drift? c = .ok (some d) ∧ d.name = v.name ∧ d.text = v.shown c) := by
  unfold drift? Drifts shown
  cases present : v.encode c with
  | ok got =>
    by_cases same : got = v.code
    · exact .inl ⟨congrArg _ same, by simp only [if_pos same]⟩
    · refine .inr ⟨fun h => same (Except.ok.inj h), ⟨v.name, v.code, got, none⟩, ?_⟩
      exact ⟨by simp only [if_neg same], rfl, rfl⟩
  | error f =>
    cases f with
    | error e => exact .inr ⟨by simp, _, rfl, rfl, rfl⟩
    | trap => exact absurd present sound

theorem exists_drift? (sound : v.encode c ≠ .error .trap) : ∃ drift, v.drift? c = .ok drift := by
  rcases drift?_cases sound with ⟨-, drift⟩ | ⟨-, d, drift, -⟩
  · exact ⟨none, drift⟩
  · exact ⟨some d, drift⟩

end GoldenVector

/-! ## The last vector of a name -/

/-- The last vector of its name among those with a property. -/
def LastWith (p : GoldenVector → Prop) (vs : List GoldenVector) (v : GoldenVector) : Prop :=
  ∃ front rest, vs = front ++ v :: rest ∧ p v ∧ ∀ u ∈ rest, p u → u.name ≠ v.name

namespace LastWith

variable {p : GoldenVector → Prop} {vs : List GoldenVector} {v w : GoldenVector}

theorem mem (last : LastWith p vs v) : v ∈ vs ∧ p v := by
  obtain ⟨front, rest, rfl, holds, -⟩ := last
  exact ⟨by simp, holds⟩

theorem cons_iff : LastWith p (w :: vs) v ↔
    LastWith p vs v ∨ v = w ∧ p w ∧ ∀ u ∈ vs, p u → u.name ≠ w.name := by
  constructor
  · rintro ⟨front, rest, split, holds, others⟩
    cases front with
    | nil =>
      obtain ⟨rfl, rfl⟩ := List.cons.inj split
      exact .inr ⟨rfl, holds, others⟩
    | cons x front =>
      obtain ⟨rfl, rfl⟩ := List.cons.inj split
      exact .inl ⟨front, rest, rfl, holds, others⟩
  · rintro (⟨front, rest, rfl, holds, others⟩ | ⟨rfl, holds, others⟩)
    · exact ⟨w :: front, rest, rfl, holds, others⟩
    · exact ⟨[], vs, rfl, holds, others⟩

theorem exists_of_mem (member : v ∈ vs) (holds : p v) : ∃ u, LastWith p vs u ∧ u.name = v.name := by
  induction vs generalizing v with
  | nil => cases member
  | cons w vs ih =>
    by_cases later : ∃ u ∈ vs, p u ∧ u.name = v.name
    · obtain ⟨u, inside, passes, same⟩ := later
      obtain ⟨last, found, name⟩ := ih inside passes
      exact ⟨last, cons_iff.2 (.inl found), name.trans same⟩
    · rcases List.mem_cons.1 member with rfl | inside
      · exact ⟨v, cons_iff.2 (.inr ⟨rfl, holds, fun u inside passes same =>
          later ⟨u, inside, passes, same⟩⟩), rfl⟩
      · exact absurd ⟨v, inside, holds, rfl⟩ later

end LastWith

/-- Where the vectors with a property make an entry each, the last entry of a name is that of the last
such vector. -/
theorem lastOf?_filterMap {p : GoldenVector → Prop} {vs : List GoldenVector}
    {f : GoldenVector → Option (String × String)} {text : GoldenVector → String}
    (entry : ∀ v ∈ vs, p v → f v = some (v.name, text v)) (other : ∀ v ∈ vs, ¬ p v → f v = none)
    {key value : String} :
    lastOf? key (vs.filterMap f) = some value ↔
      ∃ v, LastWith p vs v ∧ v.name = key ∧ text v = value := by
  induction vs generalizing value with
  | nil =>
    refine ⟨fun found => absurd found (by simp [lastOf?]), ?_⟩
    rintro ⟨v, last, -⟩
    cases last.mem.1
  | cons w vs ih =>
    have ih {value : String} : lastOf? key (vs.filterMap f) = some value ↔
        ∃ v, LastWith p vs v ∧ v.name = key ∧ text v = value :=
      ih (fun v member => entry v (List.mem_cons_of_mem w member))
        fun v member => other v (List.mem_cons_of_mem w member)
    by_cases holds : p w
    · -- the entry of `w` is the one found iff no later vector makes an entry of the name
      rw [List.filterMap_cons_some (entry w List.mem_cons_self holds), lastOf?_cons,
        Option.or_eq_some_iff, ih]
      have absent : lastOf? key (vs.filterMap f) = none ↔ ∀ u ∈ vs, p u → u.name ≠ key := by
        rw [Option.eq_none_iff_forall_ne_some]
        constructor
        · rintro none u inside passes rfl
          obtain ⟨last, found, name⟩ := LastWith.exists_of_mem inside passes
          exact none (text last) (ih.2 ⟨last, found, name, rfl⟩)
        · intro none value found
          obtain ⟨last, found, name, -⟩ := ih.1 found
          exact none last found.mem.1 found.mem.2 name
      rw [absent]
      simp only [LastWith.cons_iff, or_and_right, exists_or]
      refine or_congr_right ⟨?_, ?_⟩
      · rintro ⟨none, chosen⟩
        split at chosen
        · next same =>
          exact ⟨w, ⟨rfl, holds, same ▸ none⟩, same.symm, Option.some.inj chosen⟩
        · cases chosen
      · rintro ⟨v, ⟨rfl, -, none⟩, rfl, rfl⟩
        exact ⟨none, if_pos rfl⟩
    · rw [List.filterMap_cons_none (other w List.mem_cons_self holds), ih]
      simp only [LastWith.cons_iff, holds, false_and, and_false, or_false]

/-! ## Checking -/

/-- The entry that a drift makes among the present codes. -/
def Drift.entry (d : Drift) : String × String := (d.name, d.text)

/-- The entry of a vector that has drifted. -/
def GoldenVector.entry? (c : Catalog) (v : GoldenVector) : Option (String × String) :=
  match v.drift? c with
  | .ok drift => drift.map Drift.entry
  | .error _ => none

theorem GoldenVector.entry?_eq {c : Catalog} {v : GoldenVector} (sound : v.encode c ≠ .error .trap) :
    (v.Drifts c → v.entry? c = some (v.name, v.shown c)) ∧ (¬ v.Drifts c → v.entry? c = none) := by
  unfold entry?
  rcases drift?_cases sound with ⟨same, drift⟩ | ⟨drifts, d, drift, name, text⟩
  · rw [drift]
    exact ⟨fun drifts => absurd same drifts, fun _ => rfl⟩
  · rw [drift, ← name, ← text]
    exact ⟨fun _ => rfl, fun stays => absurd drifts stays⟩

namespace Golden

variable {c : Catalog} {g g' : Golden} {vs : List GoldenVector} {v : GoldenVector}

theorem mapM_drift?_of_trap (member : v ∈ vs) (trap : v.encode c = .error .trap) :
    vs.mapM (GoldenVector.drift? c) = .error .trap := by
  induction vs with
  | nil => cases member
  | cons w vs ih =>
    rw [List.mapM_cons]
    by_cases here : w.encode c = .error .trap
    · rw [GoldenVector.drift?_of_trap here]
      rfl
    · obtain ⟨drift, first⟩ := GoldenVector.exists_drift? here
      have later : v ∈ vs := (List.mem_cons.1 member).resolve_left fun same => here (same ▸ trap)
      rw [first, ih later]
      rfl

theorem mapM_drift?_of_sound (sound : ∀ v ∈ vs, v.encode c ≠ .error .trap) :
    ∃ found, vs.mapM (GoldenVector.drift? c) = .ok found ∧
      (found.filterMap id).map Drift.entry = vs.filterMap (GoldenVector.entry? c) := by
  induction vs with
  | nil => exact ⟨[], rfl, rfl⟩
  | cons v vs ih =>
    obtain ⟨here, later⟩ := List.forall_mem_cons.1 sound
    obtain ⟨found, rest, entries⟩ := ih later
    obtain ⟨drift, first⟩ := GoldenVector.exists_drift? here
    refine ⟨drift :: found, by rw [List.mapM_cons, first, rest]; rfl, ?_⟩
    rw [List.filterMap_cons, List.filterMap_cons, ← entries, GoldenVector.entry?, first]
    cases drift with
    | none => rfl
    | some d => rfl

variable {drifts : List Drift}

/-- A check ends with the drifts unless a vector traps. -/
theorem exists_check_iff :
    (∃ drifts, g.check c = .ok drifts) ↔ ∀ v ∈ g.vectors, v.encode c ≠ .error .trap := by
  constructor
  · rintro ⟨drifts, done⟩ v member trap
    rw [check, mapM_drift?_of_trap member trap] at done
    cases done
  · intro sound
    obtain ⟨found, all, -⟩ := mapM_drift?_of_sound sound
    exact ⟨found.filterMap id, by rw [check, all]; rfl⟩

theorem entries_of_check (done : g.check c = .ok drifts) :
    drifts.map Drift.entry = g.vectors.filterMap (GoldenVector.entry? c) := by
  obtain ⟨found, all, entries⟩ := mapM_drift?_of_sound (exists_check_iff.1 ⟨drifts, done⟩)
  rw [check, all] at done
  exact Except.ok.inj done ▸ entries

theorem drifts_eq_nil_iff (done : g.check c = .ok drifts) :
    drifts = [] ↔ ∀ v ∈ g.vectors, v.encode c = .ok v.code := by
  have sound := exists_check_iff.1 ⟨drifts, done⟩
  rw [← List.map_eq_nil_iff (f := Drift.entry), entries_of_check done, List.filterMap_eq_nil_iff]
  refine forall₂_congr fun v member => ?_
  obtain ⟨drifted, stayed⟩ := GoldenVector.entry?_eq (sound v member)
  constructor
  · intro none
    refine Classical.byContradiction fun drifts => ?_
    rw [drifted drifts] at none
    cases none
  · intro same
    exact stayed fun drifts => drifts same

/-! ## The difference -/

/-- The code expected under a name is that of the last vector with the name. -/
theorem get?_want {key value : String} : g.want.get? key = some value ↔
    ∃ v, LastWith (fun _ => True) g.vectors v ∧ v.name = key ∧ v.code = value := by
  have none : TextMap.empty.get? key = none := rfl
  rw [want, TextMap.get?_setAll, none, Option.or_none, ← List.filterMap_eq_map]
  exact lastOf?_filterMap (fun _ _ _ => rfl) fun _ _ none => absurd trivial none

theorem get?_got (g : Golden) (drifts : List Drift) (key : String) :
    (g.got drifts).get? key = (lastOf? key (drifts.map Drift.entry)).or (g.want.get? key) :=
  g.want.get?_setAll (drifts.map Drift.entry) key

theorem lastOf?_entries (done : g.check c = .ok drifts) {key value : String} :
    lastOf? key (drifts.map Drift.entry) = some value ↔
      ∃ v, LastWith (GoldenVector.Drifts c) g.vectors v ∧ v.name = key ∧ v.shown c = value := by
  have sound := exists_check_iff.1 ⟨drifts, done⟩
  rw [entries_of_check done]
  exact lastOf?_filterMap (fun v member => (GoldenVector.entry?_eq (sound v member)).1)
    fun v member => (GoldenVector.entry?_eq (sound v member)).2

/-- Expected and present codes agree iff under every name the drift, if there is one, gives the
expected code. -/
theorem want_eq_got_iff (g : Golden) (drifts : List Drift) :
    g.want = g.got drifts ↔ ∀ name text, lastOf? name (drifts.map Drift.entry) = some text →
      g.want.get? name = some text := by
  constructor
  · intro same name text found
    rw [same, get?_got, found, Option.some_or]
  · intro agree
    refine TextMap.ext_get? fun name => ?_
    rw [get?_got]
    cases found : lastOf? name (drifts.map Drift.entry) with
    | none => rw [Option.none_or]
    | some text => rw [agree name text found, Option.some_or]

section
variable {lib : JsonDiff} (sound : lib.Sound) (coloring : Bool)
include sound

/-- A difference is always made, and it is empty iff expected and present codes agree. -/
theorem exists_diff (g : Golden) (drifts : List Drift) :
    ∃ text, g.diff lib coloring drifts = .ok text ∧ (text = "" ↔ g.want = g.got drifts) := by
  cases drifts with
  | nil => exact ⟨"", rfl, iff_of_true rfl rfl⟩
  | cons d drifts =>
    obtain ⟨delta, compared, modified⟩ := sound.compares g.want (g.got (d :: drifts))
    have made : g.diff lib coloring (d :: drifts) =
        if lib.modified delta then lib.format coloring g.want delta else .ok "" := by
      rw [diff, compared]
      rfl
    by_cases differ : lib.modified delta = true
    · obtain ⟨text, written, some⟩ := sound.writes coloring _ _ delta compared differ
      refine ⟨text, by rw [made, if_pos differ, written], ?_⟩
      exact iff_of_false some (modified.1 differ)
    · refine ⟨"", by rw [made, if_neg differ], iff_of_true rfl ?_⟩
      exact not_not.1 fun other => differ (modified.2 other)

theorem diff_eq_empty_iff_agree (g : Golden) (drifts : List Drift) :
    g.diff lib coloring drifts = .ok "" ↔ g.want = g.got drifts := by
  obtain ⟨text, made, empty⟩ := exists_diff sound coloring g drifts
  rw [made, ← empty, Except.ok.injEq]

end

/-- The drift of a set goes unseen: what the last drifted vector of a name gives now is the code that
the last vector of the name is expected to have. -/
def Hides (c : Catalog) (g : Golden) : Prop :=
  ∀ v w, LastWith (GoldenVector.Drifts c) g.vectors v → LastWith (fun _ => True) g.vectors w →
    w.name = v.name → v.shown c = w.code

theorem diff_eq_empty_iff {lib : JsonDiff} (sound : lib.Sound) (done : g.check c = .ok drifts)
    (coloring : Bool) : g.diff lib coloring drifts = .ok "" ↔ g.Hides c := by
  rw [diff_eq_empty_iff_agree sound, want_eq_got_iff]
  constructor
  · intro seen v w drifted last name
    have found := seen v.name _ ((lastOf?_entries done).2 ⟨v, drifted, rfl, rfl⟩)
    have wanted := get?_want.2 ⟨w, last, name, rfl⟩
    exact Option.some.inj (found.symm.trans wanted)
  · intro hides name text found
    obtain ⟨u, drifted, rfl, rfl⟩ := (lastOf?_entries done).1 found
    obtain ⟨w, last, same⟩ := LastWith.exists_of_mem (p := fun _ => True) drifted.mem.1 trivial
    exact get?_want.2 ⟨w, last, same, (hides u w drifted last same).symm⟩

/-- No drift goes unseen where every vector has a name of its own and a code that is not the text of an
error. -/
theorem not_drifts_of_hides (done : g.check c = .ok drifts) (distinct : (g.vectors.map (·.name)).Nodup)
    (codes : ∀ v ∈ g.vectors, ¬ "error: ".toList <+: v.code.toList) (hides : g.Hides c) :
    ∀ v ∈ g.vectors, v.encode c = .ok v.code := by
  intro v member
  refine Classical.byContradiction fun drifts => ?_
  have sound := exists_check_iff.1 ⟨_, done⟩ v member
  obtain ⟨front, rest, split⟩ := List.append_of_mem member
  have others : ∀ u ∈ rest, u.name ≠ v.name := by
    intro u inside same
    rw [split, List.map_append, List.map_cons, List.nodup_append] at distinct
    exact (List.nodup_cons.1 distinct.2.1).1 (List.mem_map.2 ⟨u, inside, same⟩)
  -- alone with its name, `v` is compared with its own code
  have same : v.shown c = v.code :=
    hides v v ⟨front, rest, split, drifts, fun u inside _ => others u inside⟩
      ⟨front, rest, split, trivial, fun u inside _ => others u inside⟩ rfl
  unfold GoldenVector.shown at same
  split at same
  · next code present => exact drifts (present.trans (congrArg _ same))
  · next e present =>
    refine codes v member ⟨e.message.toList, ?_⟩
    rw [← same, String.toList_append]
  · next trap => exact sound trap

/-! ## Updating -/

theorem updateVectors_of_encode (present : ∀ v ∈ vs, v.encode c = .ok (v.shown c)) :
    updateVectors c vs = (.ok (), vs.map (GoldenVector.updated c)) := by
  induction vs with
  | nil => rfl
  | cons v vs ih =>
    obtain ⟨first, rest⟩ := List.forall_mem_cons.1 present
    simp only [updateVectors, first, ih rest]
    rfl

theorem encode_of_updateVectors (done : (updateVectors c vs).1 = .ok ()) :
    ∀ v ∈ vs, v.encode c = .ok (v.shown c) := by
  induction vs with
  | nil => exact List.forall_mem_nil _
  | cons v vs ih =>
    rw [updateVectors] at done
    cases present : v.encode c with
    | error f =>
      rw [present] at done
      cases done
    | ok code =>
      rw [present] at done
      have first := GoldenVector.exists_encode_iff.1 ⟨code, present⟩
      exact List.forall_mem_cons.2 ⟨first, ih done⟩

/-- An update succeeds iff every vector can be encoded, and replaces the codes alone. -/
theorem update_eq_ok_iff :
    g.update c = (.ok (), g') ↔ (∀ v ∈ g.vectors, v.encode c = .ok (v.shown c)) ∧
      g' = ⟨g.vectors?.map (List.map (GoldenVector.updated c))⟩ := by
  obtain ⟨_ | vs⟩ := g
  · simp [update, vectors, eq_comm]
  · simp only [update, vectors, Option.getD_some, Option.map_some]
    constructor
    · intro done
      have present := encode_of_updateVectors (congrArg Prod.fst done)
      rw [updateVectors_of_encode present] at done
      exact ⟨present, (congrArg Prod.snd done).symm⟩
    · rintro ⟨present, rfl⟩
      rw [updateVectors_of_encode present]

theorem vectors_update (done : g.update c = (.ok (), g')) :
    g'.vectors = g.vectors.map (GoldenVector.updated c) := by
  obtain ⟨-, rfl⟩ := update_eq_ok_iff.1 done
  obtain ⟨_ | vs⟩ := g
  · rfl
  · rfl

/-- A set that has been updated has no drift. -/
theorem check_update (done : g.update c = (.ok (), g')) : g'.check c = .ok [] := by
  have present := (update_eq_ok_iff.1 done).1
  have fresh : ∀ v ∈ g'.vectors, v.encode c = .ok v.code := by
    rw [vectors_update done, List.forall_mem_map]
    exact fun v member => (v.encode_updated c).trans (present v member)
  obtain ⟨drifts, checked⟩ := exists_check_iff.2 fun v member trap => by
    rw [fresh v member] at trap
    cases trap
  rw [checked, (drifts_eq_nil_iff checked).2 fresh]

end Golden

/-- When the drift of golden vectors is seen. A check ends unless a vector traps, and finds nothing iff
every vector has the expected code. Whatever compares the codes, a difference is made of what a check
finds; it is empty if that is nothing, but also if the drift hides, which it cannot where names are
distinct and no code is the text of an error. An update succeeds iff every vector can be encoded; it
leaves names, targets and listings alone, and a check finds nothing after it. -/
theorem drift_seen_unless_hidden {lib : JsonDiff} (sound : lib.Sound) (c : Catalog) (g : Golden) :
    ((∃ drifts, g.check c = .ok drifts) ↔ ∀ v ∈ g.vectors, v.encode c ≠ .error .trap) ∧
    (∀ drifts, g.check c = .ok drifts →
      (drifts = [] ↔ ∀ v ∈ g.vectors, v.encode c = .ok v.code) ∧
      ∀ coloring, ∃ text, g.diff lib coloring drifts = .ok text ∧
        (text = "" ↔ g.Hides c) ∧
        (drifts = [] → text = "") ∧
        ((g.vectors.map (·.name)).Nodup → (∀ v ∈ g.vectors, ¬ "error: ".toList <+: v.code.toList) →
          (text = "" ↔ drifts = []))) ∧
    ((∃ g', g.update c = (.ok (), g')) ↔ ∀ v ∈ g.vectors, ∃ code, v.encode c = .ok code) ∧
    ∀ g', g.update c = (.ok (), g') →
      g'.vectors.map (fun v => (v.name, v.profile, v.source)) =
        g.vectors.map (fun v => (v.name, v.profile, v.source)) ∧
      g'.check c = .ok [] := by
  refine ⟨Golden.exists_check_iff, fun drifts done => ?_, ?_, fun g' done => ?_⟩
  · have none := Golden.drifts_eq_nil_iff done
    refine ⟨none, fun coloring => ?_⟩
    obtain ⟨text, made, -⟩ := Golden.exists_diff sound coloring g drifts
    have seen : text = "" ↔ g.Hides c := by
      rw [← Golden.diff_eq_empty_iff sound done coloring, made, Except.ok.injEq]
    have empty (nothing : drifts = []) : text = "" :=
      seen.2 fun v w drifted _ _ => absurd (none.1 nothing v drifted.mem.1) drifted.mem.2
    refine ⟨text, made, seen, empty, fun distinct codes => ⟨fun blank => ?_, empty⟩⟩
    exact none.2 (Golden.not_drifts_of_hides done distinct codes (seen.1 blank))
  · simp only [Golden.update_eq_ok_iff, GoldenVector.exists_encode_iff, exists_and_left,
      exists_eq, and_true]
  · refine ⟨?_, Golden.check_update done⟩
    rw [Golden.vectors_update done, List.map_map]
    rfl

/-- A sum whose expected code is out of date, beside a move. -/
theorem drift_seen_unless_hidden_sum :
    let target := "x86_64-sse2-128"
    let g : Golden := ⟨some [⟨"sum", target, "addox_rr Xmm1, Xmm2", "00"⟩,
      ⟨"move", target, "movox_rr Xmm1, Xmm2", "0f28ca"⟩]⟩
    let drifts : List Drift := [⟨"sum", "00", "660ffeca", none⟩]
    JsonDiff.ascii.Sound ∧ g.check .standard = .ok drifts ∧ (g.vectors.map (·.name)).Nodup ∧
      (∀ v ∈ g.vectors, ¬ "error: ".toList <+: v.code.toList) ∧
      (∃ text, g.diff .ascii false drifts = .ok text ∧ text ≠ "") ∧
      ∃ g', g.update .standard = (.ok (), g') ∧
        g'.vectors.map (·.code) = ["660ffeca", "0f28ca"] ∧ g'.check .standard = .ok [] := by
  intro target g drifts
  have checked : g.check .standard = .ok drifts := by decide +kernel
  have distinct : (g.vectors.map (·.name)).Nodup := by decide +kernel
  have codes : ∀ v ∈ g.vectors, ¬ "error: ".toList <+: v.code.toList := by decide +kernel
  obtain ⟨-, found, -, updated⟩ := drift_seen_unless_hidden JsonDiff.ascii_sound .standard g
  obtain ⟨text, made, -, -, seen⟩ := (found drifts checked).2 false
  have done : (g.update .standard).1 = .ok () := by decide +kernel
  refine ⟨JsonDiff.ascii_sound, checked, distinct, codes, ⟨text, made, fun empty => ?_⟩,
    _, Prod.ext done rfl, by decide +kernel, ?_⟩
  · exact List.cons_ne_nil _ _ ((seen distinct codes).1 empty)
  · exact (updated _ (Prod.ext done rfl)).2

/-- A vector that has drifted goes unseen, whatever compares the codes, if its present code is expected
of a later vector with the same name. -/
theorem repeated_name_hides_drift :
    let target := "x86_64-sse2-128"
    let g : Golden := ⟨some [⟨"sum", target, "addox_rr Xmm1, Xmm2", "00"⟩,
      ⟨"sum", target, "addox_rr Xmm1, Xmm2", "660ffeca"⟩]⟩
    let drifts : List Drift := [⟨"sum", "00", "660ffeca", none⟩]
    g.check .standard = .ok drifts ∧ drifts ≠ [] ∧ g.diff .ascii false drifts = .ok "" ∧
      ∀ lib : JsonDiff, lib.Sound → g.diff lib false drifts = .ok "" := by
  intro target g drifts
  have same : g.want = g.got drifts := by
    rw [Golden.want_eq_got_iff]
    intro name text found
    have entry : (drifts.map Drift.entry) = [("sum", "660ffeca")] := rfl
    rw [entry, lastOf?_cons] at found
    obtain ⟨rfl, rfl⟩ : name = "sum" ∧ "660ffeca" = text := by simpa [lastOf?] using found
    decide +kernel
  have unseen {lib : JsonDiff} (sound : lib.Sound) : g.diff lib false drifts = .ok "" :=
    (Golden.diff_eq_empty_iff_agree sound false g drifts).2 same
  exact ⟨by decide +kernel, List.cons_ne_nil _ _, unseen JsonDiff.ascii_sound, fun _ => unseen⟩

end LaneAsm
