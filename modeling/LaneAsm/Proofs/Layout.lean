import LaneAsm.Proofs.Pieces

/-!
How code is laid out. Appending pieces keeps windows inside the code and apart from each other, code and
labels in whole units, and slots empty (`Branching.Laid.put`). Bytes of fields aside, all of this is
seen in the code as it was emitted, so it outlasts the resolving of references (`Branching.Same.laid`).
-/
namespace LaneAsm

namespace Bytes

theorem readWord_append_left {v : Bytes} {bs : List UInt8} {o n : Nat} (inside : o + n ≤ v.size) :
    readWord (v ++ bs) o n = v.readWord o n := by
  refine readWord_congr fun i _ below => ?_
  rw [← Array.getElem?_toList, ← Array.getElem?_toList, Array.toList_appendList,
    List.getElem?_append_left (by rw [Array.length_toList]; omega)]

theorem readWord_append_right (v : Bytes) (bs : List UInt8) :
    readWord (v ++ bs) v.size bs.length = wordOf bs := by
  rw [readWord_eq, Array.toList_appendList, List.drop_left' Array.length_toList, List.take_length]

theorem getElem?_append_list_left {v : Bytes} {bs : List UInt8} {i : Nat} (inside : i < v.size) :
    (v ++ bs : Bytes)[i]? = v[i]? := by
  rw [← Array.getElem?_toList, ← Array.getElem?_toList, Array.toList_appendList,
    List.getElem?_append_left (by rwa [Array.length_toList])]

theorem getElem?_append_list_right {v : Bytes} {bs : List UInt8} {i : Nat} (outside : v.size ≤ i) :
    (v ++ bs : Bytes)[i]? = bs[i - v.size]? := by
  rw [← Array.getElem?_toList, Array.toList_appendList,
    List.getElem?_append_right (by rwa [Array.length_toList]), Array.length_toList]

end Bytes

namespace Branching

variable {br : Branching} {s : Buffer}

/-- Code that is laid out. -/
structure Laid (br : Branching) (s : Buffer) : Prop where
  /-- Windows have four bytes, start at a unit and lie in the code together with their slots. -/
  windows : ∀ f ∈ s.fixups, f.kind = br.kind ∧ 0 ≤ f.site ∧ f.origin = f.site + 4 ∧
    f.origin + br.slot ≤ s.size ∧ (br.unit : Int) ∣ f.site
  apart : s.fixups.toList.Pairwise fun f g => f.origin + (br.slot : Int) ≤ g.site
  whole : br.unit ∣ s.size
  bound : ∀ o, some o ∈ s.labels → o ≤ s.size ∧ br.unit ∣ o
  slots : ∀ f ∈ s.fixups, ∀ i : Nat, f.origin ≤ i → (i : Int) < f.origin + br.slot →
    s.code[i]? = some 0
  /-- A word that transfers control is a window. -/
  branches : br = .mips → ∀ k, 4 ∣ k → k + 4 ≤ s.size →
    Msa.transfers (s.code.readWord k 4).toNat = true → ∃ f ∈ s.fixups, f.site = k

theorem laid_empty (br : Branching) : br.Laid Buffer.empty where
  windows := by simp [Buffer.empty]
  apart := List.Pairwise.nil
  whole := Nat.dvd_zero _
  bound := by simp [Buffer.empty]
  slots := by simp [Buffer.empty]
  branches := by
    intro _ k _ inside
    exact absurd inside (by simp [Buffer.empty, Buffer.size])

theorem unit_dvd_four (br : Branching) : (br.unit : Int) ∣ 4 := by cases br <;> decide

theorem unit_dvd_slot (br : Branching) : br.unit ∣ br.slot := by cases br <;> decide

/-! ## Pieces -/

/-- The bytes of a piece with its slot. -/
def all (br : Branching) (p : Piece) : List UInt8 :=
  p.bytes ++ match p.target with
    | none => []
    | some _ => List.replicate br.slot 0

/-- The reference of a piece that is appended at an offset. -/
def reference? (br : Branching) (p : Piece) (offset : Nat) : Option Fixup :=
  p.target.map fun l => ⟨br.kind, (offset + p.bytes.length : Nat) - 4, (offset + p.bytes.length : Nat), l⟩

theorem code_put (p : Piece) : (br.put s p).code = s.code ++ br.all p := by
  unfold put all
  cases p.target with
  | none => simp [Buffer.emit]
  | some l =>
    apply Array.toList_inj.1
    simp only [Buffer.emit, Buffer.fix, Array.toList_appendList, List.append_assoc]

theorem fixups_put (p : Piece) :
    (br.put s p).fixups.toList = s.fixups.toList ++ (br.reference? p s.size).toList := by
  unfold put reference?
  cases p.target with
  | none => simp [Buffer.emit]
  | some l =>
    simp only [s.size_emit]
    simp [Buffer.emit, Buffer.fix]

@[simp] theorem labels_put (p : Piece) : (br.put s p).labels = s.labels := by
  unfold put
  cases p.target <;> rfl

theorem size_put (p : Piece) : (br.put s p).size = s.size + (br.all p).length := by
  rw [Buffer.size, code_put, ← Array.length_toList, Array.toList_appendList, List.length_append]
  rfl

theorem length_all (p : Piece) :
    (br.all p).length = p.bytes.length + if p.target.isSome then br.slot else 0 := by
  unfold all
  cases p.target <;> simp

theorem mem_fixups_put {p : Piece} {f : Fixup} :
    f ∈ (br.put s p).fixups ↔ f ∈ s.fixups ∨ br.reference? p s.size = some f := by
  rw [← Array.mem_toList_iff, fixups_put, List.mem_append, Array.mem_toList_iff, Option.mem_toList]

/-- The reference of a branch ends where the bytes of the piece do, before the slot. -/
theorem of_reference? {p : Piece} {offset : Nat} {f : Fixup} (formed : br.Formed p)
    (made : br.reference? p offset = some f) : (br.all p).length = p.bytes.length + br.slot ∧
      4 ≤ p.bytes.length ∧ f.kind = br.kind ∧ f.origin = (offset + p.bytes.length : Nat) ∧
      f.site = f.origin - 4 := by
  obtain ⟨l, target, rfl⟩ := Option.map_eq_some_iff.1 made
  have some : p.target.isSome = true := by rw [target]; rfl
  refine ⟨by rw [length_all, if_pos some], formed.window (by rw [target]; exact nofun), rfl, rfl, rfl⟩

theorem slot_of_reference? {p : Piece} {offset : Nat} {f : Fixup} (made : br.reference? p offset = some f)
    {i : Nat} (above : p.bytes.length ≤ i) (below : i < p.bytes.length + br.slot) :
    (br.all p)[i]? = some 0 := by
  obtain ⟨l, target, rfl⟩ := Option.map_eq_some_iff.1 made
  rw [all, target]
  dsimp only
  rw [List.getElem?_append_right above, List.getElem?_replicate, if_pos (by omega)]

/-- A word on MIPS that transfers control, after a piece, stands before it or is its branch. -/
theorem transfers_put {p : Piece} (mips : br = .mips) (formed : br.Formed p) {k : Nat}
    (aligned : 4 ∣ k) (whole : 4 ∣ s.size) (inside : k + 4 ≤ s.size + (br.all p).length)
    (transfers : Msa.transfers (Bytes.readWord (s.code ++ br.all p) k 4).toNat = true) :
    (k + 4 ≤ s.size ∧ Msa.transfers (s.code.readWord k 4).toNat = true) ∨
      k = s.size ∧ p.target.isSome = true := by
  obtain ⟨length, plain⟩ := formed.word mips
  by_cases old : k + 4 ≤ s.size
  · rw [Bytes.readWord_append_left old] at transfers
    exact .inl ⟨old, transfers⟩
  · refine .inr ?_
    rw [all] at transfers inside
    cases target : p.target with
    | none =>
      rw [target, List.append_nil] at transfers inside
      obtain rfl : k = s.size := by omega
      have read : Bytes.readWord (s.code ++ p.bytes) s.size 4 = wordOf p.bytes :=
        length ▸ Bytes.readWord_append_right s.code p.bytes
      rw [read, plain target] at transfers
      cases transfers
    | some l =>
      rw [target] at transfers inside
      simp only [mips, slot, List.length_append, List.length_replicate, length] at transfers inside
      by_cases here : k = s.size
      · exact ⟨here, rfl⟩
      · -- The word after the branch is its slot.
        have front : (s.code ++ p.bytes : Bytes).size = k := by
          show (s.emit p.bytes).size = k
          rw [s.size_emit]
          omega
        have joined : (s.code ++ (p.bytes ++ List.replicate 4 0) : Bytes)
            = (s.code ++ p.bytes : Bytes) ++ List.replicate 4 (0 : UInt8) := by
          apply Array.toList_inj.1
          simp only [Array.toList_appendList, List.append_assoc]
        have read := Bytes.readWord_append_right (s.code ++ p.bytes) (List.replicate 4 (0 : UInt8))
        rw [front, List.length_replicate, ← joined] at read
        rw [read] at transfers
        exact absurd transfers (by decide)

/-- A well-formed piece keeps code laid out. -/
theorem Laid.put {p : Piece} (laid : br.Laid s) (formed : br.Formed p) : br.Laid (br.put s p) where
  windows f member := by
    have size := @size_put br s p
    rcases mem_fixups_put.1 member with old | made
    · obtain ⟨kind, least, origin, inside, aligned⟩ := laid.windows f old
      exact ⟨kind, least, origin, by omega, aligned⟩
    · obtain ⟨length, room, kind, origin, site⟩ := of_reference? formed made
      refine ⟨kind, by omega, by omega, by omega, ?_⟩
      have ends : br.unit ∣ s.size + p.bytes.length := Nat.dvd_add laid.whole formed.whole
      rw [site, origin]
      exact Int.dvd_sub (Int.natCast_dvd_natCast.2 ends) br.unit_dvd_four
  apart := by
    rw [fixups_put]
    refine List.pairwise_append.2 ⟨laid.apart, ?_, fun f old g made => ?_⟩
    · cases br.reference? p s.size <;> simp
    · have window := laid.windows f (Array.mem_toList_iff.1 old)
      obtain ⟨length, room, kind, origin, site⟩ := of_reference? formed (Option.mem_toList.1 made)
      omega
  whole := by
    rw [size_put, length_all]
    refine Nat.dvd_add laid.whole (Nat.dvd_add formed.whole ?_)
    split
    · exact br.unit_dvd_slot
    · exact Nat.dvd_zero _
  bound o member := by
    have size := @size_put br s p
    rw [labels_put] at member
    have old := laid.bound o member
    exact ⟨by omega, old.2⟩
  slots f member i above below := by
    rw [code_put]
    rcases mem_fixups_put.1 member with old | made
    · have window := laid.windows f old
      have inside : i < s.code.size := by
        show i < s.size
        omega
      exact (Bytes.getElem?_append_list_left inside).trans (laid.slots f old i above below)
    · obtain ⟨length, room, kind, origin, site⟩ := of_reference? formed made
      have outside : s.code.size ≤ i := by
        show s.size ≤ i
        omega
      rw [Bytes.getElem?_append_list_right outside]
      exact slot_of_reference? made (by show _ ≤ i - s.size; omega) (by show i - s.size < _; omega)
  branches mips k aligned inside transfers := by
    have whole : 4 ∣ s.size := by
      have whole := laid.whole
      rwa [mips] at whole
    rw [size_put] at inside
    rw [code_put] at transfers
    rcases transfers_put mips formed aligned whole inside transfers with ⟨old, there⟩ | ⟨rfl, target⟩
    · obtain ⟨f, member, site⟩ := laid.branches mips k aligned old there
      exact ⟨f, mem_fixups_put.2 (.inl member), site⟩
    · obtain ⟨l, target⟩ := Option.isSome_iff_exists.1 target
      refine ⟨_, mem_fixups_put.2 (.inr (by rw [reference?, target]; rfl)), ?_⟩
      show ((s.size + p.bytes.length : Nat) : Int) - 4 = s.size
      rw [(formed.word mips).1]
      omega

theorem Laid.putAll {ps : List Piece} (laid : br.Laid s) (formed : ∀ p ∈ ps, br.Formed p) :
    br.Laid (ps.foldl br.put s) := by
  induction ps generalizing s with
  | nil => exact laid
  | cons p ps ih =>
    obtain ⟨first, rest⟩ := List.forall_mem_cons.1 formed
    exact ih (laid.put first) rest

theorem Laid.newLabel (laid : br.Laid s) (name : RawText) : br.Laid (s.newLabel name).2 where
  windows := laid.windows
  apart := laid.apart
  whole := laid.whole
  bound o member := laid.bound o (by simpa [Buffer.newLabel] using member)
  slots := laid.slots
  branches := laid.branches

theorem Laid.bind (laid : br.Laid s) {l : LabelRef} {s' : Buffer} (bound : s.bind l = .ok s') :
    br.Laid s' := by
  unfold Buffer.bind at bound
  split at bound
  · cases bound
  · next l =>
    split at bound
    · cases bound
    · cases bound
    · cases bound
      refine ⟨laid.windows, laid.apart, laid.whole, fun o member => ?_, laid.slots, laid.branches⟩
      rcases Array.mem_or_eq_of_mem_setIfInBounds member with old | new
      · exact laid.bound o old
      · obtain rfl := Option.some.inj new
        exact ⟨Nat.le_refl _, laid.whole⟩

/-! ## Several pieces -/

theorem labels_putAll (s : Buffer) (ps : List Piece) : (ps.foldl br.put s).labels = s.labels := by
  induction ps generalizing s with
  | nil => rfl
  | cons p ps ih => rw [List.foldl_cons, ih, labels_put]

theorem mem_fixups_putAll {s : Buffer} {f : Fixup} (member : f ∈ s.fixups) (ps : List Piece) :
    f ∈ (ps.foldl br.put s).fixups := by
  induction ps generalizing s with
  | nil => exact member
  | cons p ps ih => exact ih (mem_fixups_put.2 (.inl member))

theorem size_le_putAll (br : Branching) (s : Buffer) (ps : List Piece) :
    s.size ≤ (ps.foldl br.put s).size := by
  induction ps generalizing s with
  | nil => exact Nat.le_refl _
  | cons p ps ih =>
    have size : (br.put s p).size = s.size + (br.all p).length := size_put p
    have rest := ih (br.put s p)
    rw [List.foldl_cons]
    omega

/-- A branch leaves a reference to its label in what is appended. -/
theorem exists_fixup_of_putAll {ps : List Piece} {p : Piece} {l : LabelRef} (member : p ∈ ps)
    (formed : br.Formed p) (target : p.target = some l) (s : Buffer) :
    ∃ f ∈ (ps.foldl br.put s).fixups, f.label = l ∧ s.size ≤ f.site ∧
      f.origin ≤ (ps.foldl br.put s).size := by
  induction ps generalizing s with
  | nil => cases member
  | cons q ps ih =>
    have size : (br.put s q).size = s.size + (br.all q).length := size_put q
    have rest := size_le_putAll br (br.put s q) ps
    rw [List.foldl_cons]
    rcases List.mem_cons.1 member with rfl | later
    · have made : br.reference? p s.size = some ⟨br.kind, (s.size + p.bytes.length : Nat) - 4,
          (s.size + p.bytes.length : Nat), l⟩ := by
        rw [reference?, target]
        rfl
      obtain ⟨length, room, -⟩ := of_reference? formed made
      refine ⟨_, mem_fixups_putAll (mem_fixups_put.2 (.inr made)) ps, rfl, ?_, ?_⟩
      · show (s.size : Int) ≤ (s.size + p.bytes.length : Nat) - 4
        omega
      · show ((s.size + p.bytes.length : Nat) : Int) ≤ _
        omega
    · obtain ⟨f, new, label, above, below⟩ := ih later (br.put s q)
      exact ⟨f, new, label, by omega, below⟩

/-! ## Fields aside -/

/-- Buffers that differ in the bytes of fields alone. -/
structure Same (br : Branching) (e s : Buffer) : Prop where
  labels : s.labels = e.labels
  fixups : s.fixups = e.fixups
  size : s.size = e.size
  code : ∀ i, (∀ f ∈ e.fixups, ¬ br.Covers f i) → s.code[i]? = e.code[i]?

theorem Same.refl (br : Branching) (s : Buffer) : br.Same s s := ⟨rfl, rfl, rfl, fun _ _ => rfl⟩

variable {e : Buffer}

theorem Same.put (same : br.Same e s) (p : Piece) : br.Same (br.put e p) (br.put s p) where
  labels := by rw [labels_put, labels_put, same.labels]
  fixups := by
    apply Array.toList_inj.1
    rw [fixups_put, fixups_put, same.fixups, same.size]
  size := by rw [size_put, size_put, same.size]
  code i outside := by
    rw [code_put, code_put]
    have size : s.code.size = e.code.size := same.size
    by_cases old : i < e.code.size
    · rw [Bytes.getElem?_append_list_left old, Bytes.getElem?_append_list_left (size ▸ old)]
      exact same.code i fun f member => outside f (mem_fixups_put.2 (.inl member))
    · rw [Bytes.getElem?_append_list_right (by omega), Bytes.getElem?_append_list_right (by omega), size]

theorem Same.putAll (same : br.Same e s) (ps : List Piece) :
    br.Same (ps.foldl br.put e) (ps.foldl br.put s) := by
  induction ps generalizing e s with
  | nil => exact same
  | cons p ps ih => exact ih (same.put p)

theorem Same.newLabel (same : br.Same e s) (name : RawText) :
    br.Same (e.newLabel name).2 (s.newLabel name).2 :=
  ⟨congrArg (·.push none) same.labels, same.fixups, same.size, same.code⟩

theorem Same.bind (same : br.Same e s) (l : LabelRef) :
    (∃ fault, e.bind l = .error fault ∧ s.bind l = .error fault) ∨
      ∃ e' s', e.bind l = .ok e' ∧ s.bind l = .ok s' ∧ br.Same e' s' := by
  unfold Buffer.bind
  cases l with
  | none => exact .inl ⟨_, rfl, rfl⟩
  | some l =>
    dsimp only
    rw [same.labels]
    cases e.labels[l.id]? with
    | none => exact .inl ⟨_, rfl, rfl⟩
    | some place =>
      cases place with
      | some o => exact .inl ⟨_, rfl, rfl⟩
      | none =>
        refine .inr ⟨_, _, rfl, rfl, ?_⟩
        exact ⟨by rw [same.size], same.fixups, same.size, same.code⟩

theorem Same.finish (same : br.Same e s) (laid : br.Laid e) : br.Same e s.finish.2 := by
  have kinds : ∀ f ∈ s.fixups.toList, f.kind = br.kind := fun f member =>
    (laid.windows f (same.fixups ▸ Array.mem_toList_iff.1 member)).1
  obtain ⟨size, frame⟩ := @patchAll_frame br s.labels s.code _ kinds
  refine ⟨same.labels, same.fixups, size.trans same.size, fun i outside => ?_⟩
  refine (frame i fun f member => ?_).trans (same.code i outside)
  exact outside f (same.fixups ▸ Array.mem_toList_iff.1 member)

/-- Two windows are one, or the first ends with its slot before the second begins. -/
theorem Laid.windows_apart (laid : br.Laid s) {f g : Fixup} (left : f ∈ s.fixups)
    (right : g ∈ s.fixups) :
    f = g ∨ f.origin + (br.slot : Int) ≤ g.site ∨ g.origin + (br.slot : Int) ≤ f.site := by
  obtain ⟨i, here, rfl⟩ := List.getElem_of_mem (Array.mem_toList_iff.2 left)
  obtain ⟨j, there, rfl⟩ := List.getElem_of_mem (Array.mem_toList_iff.2 right)
  have apart := List.pairwise_iff_getElem.1 laid.apart
  rcases Nat.lt_trichotomy i j with before | rfl | after
  · exact .inr (.inl (apart i j here there before))
  · exact .inl rfl
  · exact .inr (.inr (apart j i there here after))

theorem width_le (br : Branching) : br.width ≤ 4 := by cases br <;> decide

/-- Code stays laid out whatever is written into fields. -/
theorem Same.laid (same : br.Same e s) (laid : br.Laid e) : br.Laid s where
  windows f member := by
    rw [same.size]
    exact laid.windows f (same.fixups ▸ member)
  apart := by
    rw [same.fixups]
    exact laid.apart
  whole := by
    rw [same.size]
    exact laid.whole
  bound o member := by
    rw [same.size]
    exact laid.bound o (same.labels ▸ member)
  slots f member i above below := by
    rw [same.fixups] at member
    refine (same.code i fun g other covered => ?_).trans (laid.slots f member i above below)
    have width := br.width_le
    have ends := (laid.windows g other).2.2.1
    have starts := (laid.windows f member).2.2.1
    obtain ⟨low, high⟩ := covered
    rcases laid.windows_apart member other with rfl | before | after
    · omega
    · omega
    · omega
  branches mips k aligned inside transfers := by
    rw [same.size] at inside
    rw [same.fixups]
    refine Decidable.byContradiction fun none => none ?_
    -- Fields that reach into the word at `k` start at `k`, since windows start at multiples of four.
    have same_word : s.code.readWord k 4 = e.code.readWord k 4 := by
      refine Bytes.readWord_congr fun i above below => same.code i fun f member covered => none ?_
      refine ⟨f, member, ?_⟩
      have unit := (laid.windows f member).2.2.2.2
      obtain ⟨low, high⟩ := covered
      subst mips
      simp only [Branching.unit, width] at unit high
      omega
    exact laid.branches mips k aligned inside (same_word ▸ transfers)

/-! ## Finishing -/

theorem mem_of_target? {f : Fixup} {labels : Array (Option Nat)} {t : Nat}
    (target : Buffer.target? labels f = some t) : some t ∈ labels := by
  obtain ⟨l, -, target⟩ := Option.bind_eq_some_iff.1 target
  obtain ⟨place, found, rfl⟩ := Option.bind_eq_some_iff.1 target
  exact Array.mem_of_getElem? found

theorem Laid.placed (laid : br.Laid s) {f : Fixup} (member : f ∈ s.fixups) :
    br.Placed s.labels s.code.size f := by
  obtain ⟨kind, least, origin, inside, aligned⟩ := laid.windows f member
  refine ⟨kind, least, origin, by show f.origin ≤ s.size; omega, fun t target => ?_⟩
  obtain ⟨below, whole⟩ := laid.bound t (mem_of_target? target)
  refine ⟨below, Int.dvd_sub (Int.natCast_dvd_natCast.2 whole) ?_⟩
  rw [origin]
  exact Int.dvd_add aligned br.unit_dvd_four

/-- Finishing resolves all references where they can be resolved. -/
theorem Laid.finish_ok (laid : br.Laid s) (short : s.size < 2 ^ 63)
    (resolve : ∀ f ∈ s.fixups, br.Resolves s.labels f) :
    s.finish.1 = .ok s.finish.2.code ∧ ∀ f ∈ s.fixups, ∃ t, Buffer.target? s.labels f = some t ∧
      f.origin + br.unit * br.field s.finish.2.code f.site.toNat = t := by
  have placed : ∀ f ∈ s.fixups.toList, br.Placed s.labels s.code.size f := fun f member =>
    laid.placed (Array.mem_toList_iff.1 member)
  have apart : s.fixups.toList.Pairwise fun f g => f.origin ≤ g.site :=
    laid.apart.imp fun before => by omega
  obtain ⟨ended, fields⟩ := patchAll_ok placed apart short fun f member =>
    resolve f (Array.mem_toList_iff.1 member)
  refine ⟨?_, fun f member => fields f (Array.mem_toList_iff.2 member)⟩
  show Except.map _ (Buffer.patchAll s.labels s.fixups.toList s.code).1 = _
  rw [ended]
  rfl

/-- Finishing reports the first reference that cannot be resolved. -/
theorem Laid.finish_refused (laid : br.Laid s) (short : s.size < 2 ^ 63) {before rest : List Fixup}
    {f : Fixup} (split : s.fixups.toList = before ++ f :: rest)
    (resolve : ∀ g ∈ before, br.Resolves s.labels g) {c : Cause} (refused : br.Refused s.labels f c) :
    s.finish.1 = .error (.error (.ofCause c)) := by
  have placed : ∀ g ∈ before ++ f :: rest, br.Placed s.labels s.code.size g := fun g member =>
    laid.placed (Array.mem_toList_iff.1 (split ▸ member))
  show Except.map _ (Buffer.patchAll s.labels s.fixups.toList s.code).1 = _
  rw [split, patchAll_refused placed short resolve refused]
  rfl

theorem Refused.not_resolves {labels : Array (Option Nat)} {f : Fixup} {c : Cause}
    (refused : br.Refused labels f c) : ¬ br.Resolves labels f := by
  rintro ⟨t, target, near⟩
  rcases refused with ⟨unbound, -⟩ | ⟨t', target', far, -⟩
  · rw [unbound] at target
    cases target
  · rw [target] at target'
    obtain rfl := Option.some.inj target'
    exact far near

end Branching

end LaneAsm
