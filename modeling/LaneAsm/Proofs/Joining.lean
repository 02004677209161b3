import LaneAsm.Proofs.Layout

/-!
Programs one behind the other. A buffer is joined to another by moving its labels and references behind
those that are there (`Buffer.join`). Whatever is done to the second buffer can be done to the joined
one, and finishing the joined one gives the code of both (`Buffer.finish_join`): nothing but distances is
written into it, and they stay as they were.
-/
namespace LaneAsm

/-- A label of a program that comes after `k` other labels. -/
def Label.moved (k : Nat) (l : Label) : Label := { l with id := k + l.id }

/-- A piece of a program that comes after `k` labels. -/
def Piece.moved (k : Nat) (p : Piece) : Piece :=
  { p with target := p.target.map (Option.map (Label.moved k)) }

/-- A reference of a program that comes after `size` bytes and `k` labels. -/
def Fixup.moved (size k : Nat) (f : Fixup) : Fixup :=
  { f with
    site := size + f.site
    origin := size + f.origin
    label := f.label.map (Label.moved k) }

namespace Buffer

/-- The program of `s` behind that of `base`. -/
def join (base s : Buffer) : Buffer where
  code := base.code ++ s.code
  labels := base.labels ++ s.labels.map (Option.map (base.size + ·))
  fixups := base.fixups ++ s.fixups.map (Fixup.moved base.size base.labels.size)

variable (base : Buffer)

theorem join_empty : base.join empty = base := by
  simp [join, empty]

theorem size_join (s : Buffer) : (base.join s).size = base.size + s.size := Array.size_append

theorem newLabel_join (s : Buffer) (name : RawText) :
    (base.join s).newLabel name
      = ((s.newLabel name).1.moved base.labels.size, base.join (s.newLabel name).2) := by
  simp [newLabel, join, Label.moved]

/-- A label is bound as far behind the start of its program as it was. -/
theorem bind_join (s : Buffer) (l : Label) :
    (base.join s).bind (some (l.moved base.labels.size)) = (s.bind (some l)).map base.join := by
  have found : (base.join s).labels[(l.moved base.labels.size).id]?
      = s.labels[l.id]?.map (Option.map (base.size + ·)) := by
    simp [join, Label.moved, Array.getElem?_append_right]
  unfold bind
  dsimp only
  rw [found]
  cases old : s.labels[l.id]? with
  | none => rfl
  | some place =>
    cases place with
    | some offset => rfl
    | none =>
      have inside : l.id < s.labels.size := (Array.getElem?_eq_some_iff.1 old).1
      simp [join, Label.moved, size, Array.setIfInBounds_append_right, Except.map]

theorem emit_join (s : Buffer) (bytes : List UInt8) :
    (base.join s).emit bytes = base.join (s.emit bytes) := by
  have code : base.code ++ s.code ++ bytes = base.code ++ (s.code ++ bytes) := by
    apply Array.toList_inj.1
    simp
  simp only [emit, join, code]

theorem fix_join (s : Buffer) (f : Fixup) :
    (base.join s).fix (f.moved base.size base.labels.size) = base.join (s.fix f) := by
  simp [fix, join]

end Buffer

/-- A branch is measured from where it stands, so that nothing but its label moves. -/
theorem Branching.put_join (br : Branching) (base s : Buffer) (p : Piece) :
    br.put (base.join s) (p.moved base.labels.size) = base.join (br.put s p) := by
  rcases p with ⟨bytes, target⟩
  simp only [put, Piece.moved, base.emit_join]
  cases target with
  | none => rfl
  | some l =>
    generalize s.emit bytes = t
    have moved : (⟨br.kind, ((base.join t).size : Int) - 4, (base.join t).size,
        l.map (Label.moved base.labels.size)⟩ : Fixup)
        = Fixup.moved base.size base.labels.size ⟨br.kind, (t.size : Int) - 4, t.size, l⟩ := by
      simp only [Fixup.moved, Fixup.mk.injEq, base.size_join, true_and, and_true]
      omega
    simp only [Option.map_some, moved, base.fix_join, base.emit_join]

theorem Branching.putAll_join (br : Branching) (base s : Buffer) (ps : List Piece) :
    (ps.map (Piece.moved base.labels.size)).foldl br.put (base.join s)
      = base.join (ps.foldl br.put s) := by
  induction ps generalizing s with
  | nil => rfl
  | cons p ps ih => rw [List.map_cons, List.foldl_cons, List.foldl_cons, br.put_join, ih]

/-! ## Finishing -/

namespace Buffer

/-- Bytes with others on either side are written as they are without. -/
theorem write_between (front : Bytes) {v : Bytes} (back : Bytes) {o : Nat} {bs : List UInt8}
    (inside : o + bs.length ≤ v.size) :
    (front ++ v ++ back).write (front.size + o) bs = front ++ v.write o bs ++ back := by
  induction bs generalizing v o with
  | nil => rfl
  | cons b bs ih =>
    rw [List.length_cons] at inside
    have here : front.size + o < (front ++ v).size := by
      rw [Array.size_append]
      omega
    have set : (front ++ v ++ back).setIfInBounds (front.size + o) b
        = front ++ v.setIfInBounds o b ++ back := by
      rw [Array.setIfInBounds_append_left here,
        Array.setIfInBounds_append_right (Nat.le_add_right _ _), Nat.add_sub_cancel_left]
    rw [Bytes.write, Bytes.write, set, Nat.add_assoc, ih]
    rw [Array.size_setIfInBounds]
    omega

section
variable {labels labels' : Array (Option Nat)} {code done : Bytes} (front back : Bytes)

/-- A write into the window of a reference, behind the test that it is in reach. -/
theorem write_ok_between {site site' : Int} (moved : site' = front.size + site) {far : Prop}
    [Decidable far] {e : Fault} {n : Nat} {x : UInt64} (short : n ≤ 4)
    (written : (if far then .error e
      else if 0 ≤ site && site + 4 ≤ code.size then .ok (code.write site.toNat (littleEndian n x))
      else .error .trap) = Except.ok done) :
    (if far then .error e
      else if 0 ≤ site' && site' + 4 ≤ (front ++ code ++ back).size then
        .ok ((front ++ code ++ back).write site'.toNat (littleEndian n x))
      else .error .trap) = Except.ok (front ++ done ++ back) := by
  by_cases near : far
  · rw [if_pos near] at written
    cases written
  rw [if_neg near] at written ⊢
  by_cases inside : 0 ≤ site ∧ site + 4 ≤ code.size
  · have inside' : 0 ≤ site' ∧ site' + 4 ≤ (front ++ code ++ back).size := by
      simp only [Array.size_append]
      omega
    have offset : site'.toNat = front.size + site.toNat := by omega
    simp only [inside, inside', decide_true, Bool.and_self, if_true] at written ⊢
    rw [offset, write_between front back, Except.ok.inj written]
    rw [length_littleEndian]
    omega
  · simp only [Bool.and_eq_true, decide_eq_true_eq, inside, if_false] at written
    cases written

/-- A reference that moves together with its label is written as it was. -/
theorem patch_between (move : Fixup → Fixup) {f : Fixup}
    (place : (move f).kind = f.kind ∧ (move f).site = front.size + f.site ∧
      (move f).origin = front.size + f.origin)
    (targets : ∀ t, target? labels f = some t → target? labels' (move f) = some (front.size + t))
    (patched : patch labels code f = .ok done) :
    patch labels' (front ++ code ++ back) (move f) = .ok (front ++ done ++ back) := by
  obtain ⟨kind, site, origin⟩ := place
  unfold patch at patched ⊢
  cases target : target? labels f with
  | none =>
    rw [target] at patched
    cases patched
  | some t =>
    have distance : ((front.size + t : Nat) : Int) - (move f).origin = t - f.origin := by omega
    rw [target] at patched
    rw [targets t target]
    dsimp only at patched ⊢
    rw [distance, kind]
    cases which : f.kind with
    | rel32 =>
      rw [which] at patched
      exact write_ok_between front back site (by decide) patched
    | mips16 =>
      rw [which] at patched
      exact write_ok_between front back site (by decide) patched
    | other n =>
      rw [which] at patched
      rw [Except.ok.inj patched]

theorem patchAll_between (move : Fixup → Fixup) {fs : List Fixup}
    (place : ∀ f, (move f).kind = f.kind ∧ (move f).site = front.size + f.site ∧
      (move f).origin = front.size + f.origin)
    (targets : ∀ f t, target? labels f = some t → target? labels' (move f) = some (front.size + t))
    (patched : patchAll labels fs code = (.ok (), done)) :
    patchAll labels' (fs.map move) (front ++ code ++ back) = (.ok (), front ++ done ++ back) := by
  induction fs generalizing code with
  | nil =>
    obtain ⟨-, rfl⟩ := Prod.mk.inj patched
    rfl
  | cons f fs ih =>
    rw [patchAll] at patched
    split at patched
    · next code' first =>
      rw [List.map_cons, patchAll, patch_between front back move (place f) (targets f) first]
      exact ih patched
    · cases patched

end

theorem patchAll_append {labels : Array (Option Nat)} {fs gs : List Fixup} {code code' : Bytes}
    (first : patchAll labels fs code = (.ok (), code')) :
    patchAll labels (fs ++ gs) code = patchAll labels gs code' := by
  induction fs generalizing code with
  | nil =>
    obtain ⟨-, rfl⟩ := Prod.mk.inj first
    rfl
  | cons f fs ih =>
    rw [patchAll] at first
    rw [List.cons_append, patchAll]
    split at first
    · exact ih first
    · cases first

theorem patchAll_append_refused {labels : Array (Option Nat)} {fs : List Fixup} (gs : List Fixup)
    {code code' : Bytes} {e : Fault} (first : patchAll labels fs code = (.error e, code')) :
    patchAll labels (fs ++ gs) code = (.error e, code') := by
  induction fs generalizing code with
  | nil => cases first
  | cons f fs ih =>
    rw [patchAll] at first
    rw [List.cons_append, patchAll]
    split at first
    · exact ih first
    · exact first

theorem finish_eq_ok {s : Buffer} {code : Bytes} :
    s.finish.1 = .ok code ↔ patchAll s.labels s.fixups.toList s.code = (.ok (), code) := by
  show (patchAll s.labels s.fixups.toList s.code).1.map
    (fun _ => (patchAll s.labels s.fixups.toList s.code).2) = .ok code ↔ _
  rcases patchAll s.labels s.fixups.toList s.code with ⟨_ | ⟨⟩, code'⟩ <;> simp [Except.map]

theorem size_patch {labels : Array (Option Nat)} {code code' : Bytes} {f : Fixup}
    (patched : patch labels code f = .ok code') : code'.size = code.size := by
  unfold patch at patched
  split at patched
  · cases patched
  · dsimp only at patched
    repeat' split at patched
    all_goals cases patched
    · exact Bytes.size_write ..
    · exact Bytes.size_write ..
    · rfl

theorem size_patchAll {labels : Array (Option Nat)} {fs : List Fixup} {code code' : Bytes}
    (patched : patchAll labels fs code = (.ok (), code')) : code'.size = code.size := by
  induction fs generalizing code with
  | nil => rw [← (Prod.mk.inj patched).2]
  | cons f fs ih =>
    rw [patchAll] at patched
    split at patched
    · next first => rw [ih patched, size_patch first]
    · cases patched

/-- References that were written lead to labels with a place. -/
theorem exists_target?_of_patchAll {labels : Array (Option Nat)} {fs : List Fixup} {code code' : Bytes}
    (patched : patchAll labels fs code = (.ok (), code')) : ∀ f ∈ fs, ∃ t, target? labels f = some t := by
  induction fs generalizing code with
  | nil => exact List.forall_mem_nil _
  | cons f fs ih =>
    rw [patchAll] at patched
    split at patched
    · next first =>
      refine List.forall_mem_cons.2 ⟨?_, ih patched⟩
      cases target : target? labels f with
      | some t => exact ⟨t, rfl⟩
      | none =>
        rw [patch, target] at first
        cases first
    · cases patched

/-- A place that a label has among others in front of it. -/
theorem target?_join_left (base s : Buffer) {f : Fixup} {t : Nat}
    (target : target? base.labels f = some t) : target? (base.join s).labels f = some t := by
  obtain ⟨l, label, placed⟩ := Option.bind_eq_some_iff.1 target
  obtain ⟨place, found, rfl⟩ := Option.bind_eq_some_iff.1 placed
  have inside : l.id < base.labels.size := (Array.getElem?_eq_some_iff.1 found).1
  simp only [target?, label, join, Option.bind_eq_bind, Option.bind_some,
    Array.getElem?_append_left inside, found]

theorem target?_join_right (base s : Buffer) {f : Fixup} {t : Nat}
    (target : target? s.labels f = some t) :
    target? (base.join s).labels (f.moved base.size base.labels.size) = some (base.size + t) := by
  obtain ⟨l, label, placed⟩ := Option.bind_eq_some_iff.1 target
  obtain ⟨place, found, rfl⟩ := Option.bind_eq_some_iff.1 placed
  have behind : base.labels.size ≤ (l.moved base.labels.size).id := Nat.le_add_right _ _
  simp only [target?, Fixup.moved, label, join, Option.map_some, Option.bind_eq_bind, Option.bind_some,
    Array.getElem?_append_right behind, Array.getElem?_map]
  simp [Label.moved, found]

/-- The code of two programs, one behind the other, is that of both. -/
theorem finish_join (base : Buffer) {s : Buffer} {c d : Bytes} (first : base.finish.1 = .ok c)
    (second : s.finish.1 = .ok d) : (base.join s).finish.1 = .ok (c ++ d) := by
  rw [finish_eq_ok] at first second ⊢
  have size : c.size = base.size := size_patchAll first
  have front : patchAll (base.join s).labels base.fixups.toList (base.join s).code
      = (.ok (), c ++ s.code) := by
    have kept (f : Fixup) (t : Nat) (target : target? base.labels f = some t) :
        target? (base.join s).labels (id f) = some ((#[] : Bytes).size + t) := by
      rw [Array.size_empty, Nat.zero_add]
      exact target?_join_left base s target
    simpa [join] using patchAll_between #[] s.code id (fun f => by simp) kept first
  have behind : patchAll (base.join s).labels
      (s.fixups.toList.map (Fixup.moved base.size base.labels.size)) (c ++ s.code)
      = (.ok (), c ++ d) := by
    have moves (f : Fixup) (t : Nat) (target : target? s.labels f = some t) :
        target? (base.join s).labels (f.moved base.size base.labels.size) = some (c.size + t) := by
      rw [size]
      exact target?_join_right base s target
    simpa using patchAll_between c #[] _ (fun f => by simp [Fixup.moved, size]) moves second
  have fixups : (base.join s).fixups.toList = base.fixups.toList
      ++ s.fixups.toList.map (Fixup.moved base.size base.labels.size) := by
    simp [join]
  rw [fixups, patchAll_append front, behind]

end Buffer

end LaneAsm
