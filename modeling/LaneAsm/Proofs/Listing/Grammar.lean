import LaneAsm.Proofs.Listing.Mnemonic

/-!
The grammar of mnemonics, told on letters (`Mnemonic.Spelling`, `Mnemonic.IsName`). The names it has
are the texts of the mnemonics whose verb is named and whose fields fit together. Main statement:
`mnemonics_read_exactly`. A text is read in lower case, so its length in bytes may differ from that of
the name that is read.
-/
namespace LaneAsm

open Text

namespace Mnemonic

/-- What a mnemonic is spelled with: the name of an operation or a jump, a letter for the lane size, a
letter for the kind and one of nine suffixes. The jumps are for base registers only, and a float lane
has a size of its own or that of the base registers. -/
structure Spelling (name : String) (size kind : Char) (suffix : String) : Prop where
  operation : name = "jmp" ∨ name = "cmj" ∨ ∃ o ∈ Op.named, o ≠ .none ∧ name = o.name
  letter : size ∈ ['b', 'a', 'm', 'o', 'q', 'p', 'x']
  mark : kind ∈ ['x', 'n', 's']
  shape : suffix ∈ ["_rr", "_ld", "_st", "_ri", "_rx", "_lb", "3rr", "3ld", "3ri"]
  jump : name = "jmp" ∨ name = "cmj" → size = 'x'
  float : kind = 's' → size = 'o' ∨ size = 'q' ∨ size = 'p'

/-- The letters of a mnemonic. -/
def IsName (t : List Char) : Prop :=
  ∃ name size kind suffix, Spelling name size kind suffix ∧
    t = name.toList ++ size :: kind :: suffix.toList

/-- A text is, in lower case, eight bytes long and the name of a mnemonic. -/
def Readable (s : List Char) : Prop :=
  (String.ofList (lower s)).utf8ByteSize = 8 ∧ IsName (lower s)

/-! ## Fields and letters -/

theorem exists_verb_iff {name : String} :
    (name = "jmp" ∨ name = "cmj" ∨ ∃ o ∈ Op.named, o ≠ .none ∧ name = o.name) ↔
      ∃ v ∈ Verb.named, v.name = name := by
  have others : ∀ o, o ∈ Op.named.drop 1 ↔ o ∈ Op.named ∧ o ≠ .none := by
    intro o
    simp [Op.named]
    grind
  constructor
  · rintro (rfl | rfl | ⟨o, known, other, rfl⟩)
    · exact ⟨.jmp, by simp [Verb.named], rfl⟩
    · exact ⟨.cmj, by simp [Verb.named], rfl⟩
    · refine ⟨.op o, ?_, rfl⟩
      exact List.mem_cons_of_mem _ (List.mem_cons_of_mem _
        (List.mem_map_of_mem ((others o).mpr ⟨known, other⟩)))
  · rintro ⟨v, known, rfl⟩
    rcases List.mem_cons.mp known with rfl | known
    · exact .inl rfl
    · rcases List.mem_cons.mp known with rfl | known
      · exact .inr (.inl rfl)
      · obtain ⟨o, listed, rfl⟩ := List.mem_map.mp known
        obtain ⟨named, other⟩ := (others o).mp listed
        exact .inr (.inr ⟨o, named, other, rfl⟩)

theorem exists_letter_iff {c : Char} :
    c ∈ ['b', 'a', 'm', 'o', 'q', 'p', 'x'] ↔ ∃ s : LaneSize, s.letter = c := by
  constructor
  · intro listed
    obtain ⟨s, -, spelled⟩ := List.mem_map.mp (show c ∈ LaneSize.all.map LaneSize.letter from listed)
    exact ⟨s, spelled⟩
  · rintro ⟨s, rfl⟩
    cases s <;> decide

theorem exists_mark_iff {c : Char} : c ∈ ['x', 'n', 's'] ↔ ∃ k : Kind, k.mark = c := by
  constructor
  · intro listed
    obtain ⟨k, -, spelled⟩ :=
      List.mem_map.mp (show c ∈ [Kind.unsigned, .signed, .float].map Kind.mark from listed)
    exact ⟨k, spelled⟩
  · rintro ⟨k, rfl⟩
    cases k <;> decide

theorem exists_shape_iff {t : String} :
    t ∈ ["_rr", "_ld", "_st", "_ri", "_rx", "_lb", "3rr", "3ld", "3ri"] ↔
      ∃ s : Shape, s.text = t := by
  constructor
  · intro listed
    obtain ⟨s, -, spelled⟩ := List.mem_map.mp (show t ∈ Shape.all.map Shape.text from listed)
    exact ⟨s, spelled⟩
  · rintro ⟨s, rfl⟩
    cases s <;> decide

theorem isJump_iff : ∀ v ∈ Verb.named, v.isJump = true ↔ v.name = "jmp" ∨ v.name = "cmj" := by
  decide +kernel

/-- The letters of a mnemonic fit together as its fields do. -/
theorem spelling_iff {m : Mnemonic} (named : m.verb ∈ Verb.named) :
    Spelling m.verb.name m.size.letter m.kind.mark m.shape.text ↔ m.consistent = true := by
  have jump := isJump_iff m.verb named
  have base : m.size.letter = 'x' ↔ m.size = .x := by cases m.size <;> decide
  have float : m.kind.mark = 's' ↔ m.kind = .float := by cases m.kind <;> decide
  have sized : m.size.letter = 'o' ∨ m.size.letter = 'q' ∨ m.size.letter = 'p' ↔
      m.size = .o ∨ m.size = .q ∨ m.size = .p := by cases m.size <;> decide
  have fits : m.consistent = true ↔ (m.verb.isJump = true → m.size = .x) ∧
      (m.kind = .float → m.size = .o ∨ m.size = .q ∨ m.size = .p) := by
    simp [consistent, isBase]
    grind
  rw [fits, jump, ← base, ← float, ← sized]
  constructor
  · intro spelled
    exact ⟨spelled.jump, spelled.float⟩
  · rintro ⟨jump, float⟩
    exact ⟨exists_verb_iff.mpr ⟨_, named, rfl⟩, exists_letter_iff.mpr ⟨_, rfl⟩,
      exists_mark_iff.mpr ⟨_, rfl⟩, exists_shape_iff.mpr ⟨_, rfl⟩, jump, float⟩

/-- The names of the grammar are the texts of mnemonics. -/
theorem isName_iff {t : List Char} :
    IsName t ↔ ∃ m : Mnemonic, m.verb ∈ Verb.named ∧ m.consistent = true ∧ m.text.toList = t := by
  constructor
  · rintro ⟨_, _, _, _, spelled, rfl⟩
    obtain ⟨v, named, rfl⟩ := exists_verb_iff.mp spelled.operation
    obtain ⟨z, rfl⟩ := exists_letter_iff.mp spelled.letter
    obtain ⟨k, rfl⟩ := exists_mark_iff.mp spelled.mark
    obtain ⟨s, rfl⟩ := exists_shape_iff.mp spelled.shape
    let m : Mnemonic := ⟨v, z, k, s⟩
    exact ⟨m, named, (spelling_iff (m := m) named).mp spelled, by simp [m, text]⟩
  · rintro ⟨m, named, consistent, rfl⟩
    exact ⟨_, _, _, _, (spelling_iff named).mpr consistent, by simp [text]⟩

/-! ## Bytes and errors -/

/-- A mnemonic is eight bytes long. -/
theorem utf8ByteSize_text {m : Mnemonic} (named : m.verb ∈ Verb.named) :
    m.text.utf8ByteSize = 8 := by
  have verb : ∀ v ∈ Verb.named, v.name.utf8ByteSize = 3 := by decide +kernel
  have letter : m.size.letter.utf8Size = 1 := by cases m.size <;> decide
  have mark : m.kind.mark.utf8Size = 1 := by cases m.kind <;> decide
  have shape : m.shape.text.utf8ByteSize = 3 := by cases m.shape <;> decide
  simp [text, String.utf8ByteSize_append, verb m.verb named, letter, mark, shape]

theorem kind_of_parse {s : List Char} {e : Error} (refused : parse s = .error e) :
    e.kind? = some .mnemonic := by
  cases found : ofChars? (lower s) with
  | some m => cases (parse_eq_ok.mpr found).symm.trans refused
  | none =>
    simp only [parse, found] at refused
    cases refused
    rfl

end Mnemonic

/-- Reading mnemonics. A text is read exactly when its lower case is eight bytes long and the name of a
mnemonic, letter by letter. What is read is written as that name, and reading the name again gives the
same mnemonic. Any other text is an unknown mnemonic. -/
theorem mnemonics_read_exactly (s : List Char) :
    ((∃ m, Mnemonic.parse s = .ok m) ↔ Mnemonic.Readable s) ∧
    (∀ m, Mnemonic.parse s = .ok m →
      m.text.toList = lower s ∧ Mnemonic.parse m.text.toList = .ok m) ∧
    (¬ Mnemonic.Readable s → ∃ e, Mnemonic.parse s = .error e ∧ e.kind? = some .mnemonic) := by
  have known_of_read {m : Mnemonic} (read : Mnemonic.parse s = .ok m) :
      m.verb ∈ Verb.named ∧ m.consistent = true ∧ m.text.toList = lower s :=
    Mnemonic.of_ofChars? (Mnemonic.parse_eq_ok.mp read)
  have read_iff : (∃ m, Mnemonic.parse s = .ok m) ↔ Mnemonic.Readable s := by
    constructor
    · rintro ⟨m, read⟩
      obtain ⟨named, consistent, spelled⟩ := known_of_read read
      refine ⟨?_, Mnemonic.isName_iff.mpr ⟨m, named, consistent, spelled⟩⟩
      rw [← spelled, String.ofList_toList, Mnemonic.utf8ByteSize_text named]
    · rintro ⟨-, isName⟩
      obtain ⟨m, named, consistent, spelled⟩ := Mnemonic.isName_iff.mp isName
      refine ⟨m, Mnemonic.parse_eq_ok.mpr ?_⟩
      rw [← Mnemonic.ofChars?_text named consistent, spelled]
  refine ⟨read_iff, ?_, ?_⟩
  · intro m read
    obtain ⟨named, consistent, spelled⟩ := known_of_read read
    exact ⟨spelled, Mnemonic.parse_text named consistent⟩
  · intro unknown
    cases read : Mnemonic.parse s with
    | ok m => exact absurd (read_iff.mp ⟨m, read⟩) unknown
    | error e => exact ⟨e, rfl, Mnemonic.kind_of_parse read⟩

/-- The Kelvin sign is three bytes long, and in lower case it is the letter k. -/
example : (Mnemonic.parse ("m\u212Ajox_rx".toList)).toOption = some ⟨.op .mkj, .o, .unsigned, .rx⟩ := by
  decide +kernel

end LaneAsm
