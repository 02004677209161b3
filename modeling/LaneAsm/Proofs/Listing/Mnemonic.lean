import LaneAsm.Proofs.Listing.Operand

/-!
Mnemonics that were read once are read back from their texts, which are words of eight letters.
-/
namespace LaneAsm

open Text RawText

/-- The verbs that have a name of their own. -/
def Verb.named : List Verb := .jmp :: .cmj :: (Op.named.drop 1).map .op

theorem Verb.of_ofName? {s : String} {v : Verb} (found : ofName? s = some v) :
    v ∈ named ∧ v.name = s := by
  unfold ofName? at found
  split at found
  · cases found; simp [named, name]
  · cases found; simp [named, name]
  · obtain ⟨o, first, rfl⟩ := Option.map_eq_some_iff.1 found
    have member := List.mem_of_find?_eq_some first
    have spelled := List.find?_some (p := (Op.name · == _)) first
    exact ⟨List.mem_cons_of_mem _ (List.mem_cons_of_mem _ (List.mem_map_of_mem member)),
      eq_of_beq spelled⟩

theorem Verb.ofName?_name : ∀ v ∈ named, v.name.toList.length = 3 ∧ ofName? v.name = some v
    ∧ lower v.name.toList = v.name.toList ∧ ∀ c ∈ ofString v.name, c ∈ letters := by
  decide +kernel

theorem LaneSize.ofLetter?_letter (s : LaneSize) :
    ofLetter? s.letter = some s ∧ lowerChar s.letter = s.letter ∧ .char s.letter ∈ letters := by
  cases s <;> decide +kernel

theorem Kind.ofMark?_mark (k : Kind) :
    ofMark? k.mark = some k ∧ lowerChar k.mark = k.mark ∧ .char k.mark ∈ letters := by
  cases k <;> decide +kernel

theorem Shape.ofText?_text (s : Shape) : s.text.toList.length = 3 ∧ ofText? s.text = some s
    ∧ lower s.text.toList = s.text.toList ∧ ∀ c ∈ ofString s.text, c ∈ letters := by
  cases s <;> decide +kernel

theorem exists_of_length_eq_three {α : Type} {l : List α} (three : l.length = 3) :
    ∃ a b c, l = [a, b, c] := by
  match l, three with
  | [a, b, c], _ => exact ⟨a, b, c, rfl⟩

namespace Mnemonic

theorem parse_eq_ok {s : List Char} {m : Mnemonic} :
    parse s = .ok m ↔ ofChars? (lower s) = some m := by
  cases found : ofChars? (lower s) with
  | some m' => simp [parse, found]
  | none => simp [parse, found, Error.fail]

/-- A mnemonic that was read is a name, its fields fit together, and it is written as it was read. -/
theorem of_ofChars? {t : List Char} {m : Mnemonic} (found : ofChars? t = some m) :
    m.verb ∈ Verb.named ∧ m.consistent = true ∧ m.text.toList = t := by
  unfold ofChars? at found
  split at found
  · simp only [Option.bind_eq_bind, Option.bind_eq_some_iff] at found
    obtain ⟨verb, ofVerb, size, ofSize, kind, ofKind, shape, ofShape, kept⟩ := found
    split at kept
    · next consistent =>
      cases kept
      obtain ⟨named, name⟩ := Verb.of_ofName? ofVerb
      have letter := eq_of_beq (List.find?_some (p := (LaneSize.letter · == _)) ofSize)
      have mark := eq_of_beq (List.find?_some (p := (Kind.mark · == _)) ofKind)
      have shown := eq_of_beq (List.find?_some (p := (Shape.text · == _)) ofShape)
      exact ⟨named, consistent, by simp [text, name, letter, mark, shown]⟩
    · cases kept
  · cases found

/-- What is known of a mnemonic that was read. -/
theorem accepted {s : List Char} {m : Mnemonic} (read : parse s = .ok m) :
    m.verb ∈ Verb.named ∧ m.consistent = true := by
  obtain ⟨named, consistent, -⟩ := of_ofChars? (parse_eq_ok.1 read)
  exact ⟨named, consistent⟩

/-- The letters of a mnemonic, one by one. -/
theorem exists_letters {m : Mnemonic} (named : m.verb ∈ Verb.named) :
    ∃ a b c x y z, m.text.toList = [a, b, c, m.size.letter, m.kind.mark, x, y, z] ∧
      m.verb.name.toList = [a, b, c] ∧ m.shape.text.toList = [x, y, z] := by
  obtain ⟨a, b, c, abc⟩ := exists_of_length_eq_three (Verb.ofName?_name m.verb named).1
  obtain ⟨x, y, z, xyz⟩ := exists_of_length_eq_three (Shape.ofText?_text m.shape).1
  refine ⟨a, b, c, x, y, z, ?_, abc, xyz⟩
  simp [text, abc, xyz]

theorem lower_text {m : Mnemonic} (named : m.verb ∈ Verb.named) :
    lower m.text.toList = m.text.toList := by
  obtain ⟨a, b, c, x, y, z, spelled, abc, xyz⟩ := exists_letters named
  obtain ⟨-, -, lowVerb, -⟩ := Verb.ofName?_name m.verb named
  obtain ⟨-, lowSize, -⟩ := LaneSize.ofLetter?_letter m.size
  obtain ⟨-, lowKind, -⟩ := Kind.ofMark?_mark m.kind
  obtain ⟨-, -, lowShape, -⟩ := Shape.ofText?_text m.shape
  rw [abc] at lowVerb
  rw [xyz] at lowShape
  rw [spelled]
  simp [lower] at lowVerb lowShape ⊢
  simp [lowVerb, lowShape, lowSize, lowKind]

theorem ofChars?_text {m : Mnemonic} (named : m.verb ∈ Verb.named)
    (consistent : m.consistent = true) : ofChars? m.text.toList = some m := by
  obtain ⟨a, b, c, x, y, z, spelled, abc, xyz⟩ := exists_letters named
  obtain ⟨-, ofVerb, -⟩ := Verb.ofName?_name m.verb named
  obtain ⟨ofSize, -⟩ := LaneSize.ofLetter?_letter m.size
  obtain ⟨ofKind, -⟩ := Kind.ofMark?_mark m.kind
  obtain ⟨-, ofShape, -⟩ := Shape.ofText?_text m.shape
  have name : String.ofList [a, b, c] = m.verb.name := by rw [← abc, String.ofList_toList]
  have shown : String.ofList [x, y, z] = m.shape.text := by rw [← xyz, String.ofList_toList]
  rw [spelled]
  simp [ofChars?, name, shown, ofVerb, ofSize, ofKind, ofShape, consistent]

theorem parse_text {m : Mnemonic} (named : m.verb ∈ Verb.named) (consistent : m.consistent = true) :
    parse m.text.toList = .ok m := by
  rw [parse_eq_ok, lower_text named, ofChars?_text named consistent]

theorem exists_parse_iff {m : Mnemonic} :
    (∃ s, parse s = .ok m) ↔ m.verb ∈ Verb.named ∧ m.consistent = true :=
  ⟨fun ⟨_, read⟩ => accepted read, fun ⟨named, consistent⟩ => ⟨_, parse_text named consistent⟩⟩

theorem isWord_text {m : Mnemonic} (named : m.verb ∈ Verb.named) : (ofString m.text).IsWord := by
  obtain ⟨-, -, -, verb⟩ := Verb.ofName?_name m.verb named
  obtain ⟨-, -, size⟩ := LaneSize.ofLetter?_letter m.size
  obtain ⟨-, -, kind⟩ := Kind.ofMark?_mark m.kind
  obtain ⟨-, -, -, shape⟩ := Shape.ofText?_text m.shape
  rw [text, ofString_append, ofString_append]
  have middle : ofString (String.ofList [m.size.letter, m.kind.mark])
      = [.char m.size.letter, .char m.kind.mark] := by simp [ofString, ofChars]
  rw [middle]
  refine ⟨by simp, ?_⟩
  simp only [List.forall_mem_append, List.forall_mem_cons]
  exact ⟨⟨verb, size, kind, List.forall_mem_nil _⟩, shape⟩

end Mnemonic

end LaneAsm
