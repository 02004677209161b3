import LaneAsm.Listing.Printer
import LaneAsm.Proofs.Text

/-!
Operands as listings write them are read back as they were (`parseReg_text`, `parseImm_text`,
`parseMem_listed`), and their texts survive the splitting of a line (`Argument`): they hold no mark
of a label or a comment, and no comma outside brackets.
-/
namespace LaneAsm

open Text

/-! ## Words and names -/

def letters : RawText :=
  .ofString "0123456789ABCDEFGHIJKLMNOPQRSTUVWXYZ_abcdefghijklmnopqrstuvwxyz"

/-- A symbol that the names of labels may hold. -/
def Symbol.isPlain (c : Symbol) : Bool :=
  !c.isBlank && c ∉ [.char ':', .char ',', .char '[', .char ']', .char '(', .char ')', .char '#',
    .char ';']

namespace RawText

@[simp] theorem ofString_append (s t : String) : ofString (s ++ t) = ofString s ++ ofString t := by
  simp [ofString, ofChars]

@[simp] theorem chars_ofString (s : String) : (ofString s).chars = s.toList := chars_ofChars s.toList

theorem trim_eq_self {s : RawText} (inked : Inked Symbol.isBlank s) : s.trim = s :=
  inked.strip_eq_self

def IsWord (s : RawText) : Prop := s ≠ [] ∧ ∀ c ∈ s, c ∈ letters

instance (s : RawText) : Decidable s.IsWord := inferInstanceAs (Decidable (_ ∧ _))

/-- The name of a label: no white space, no mark that a line is split at, no start of a comment. -/
structure IsName (s : RawText) : Prop where
  present : s ≠ []
  plain : ∀ c ∈ s, c.isPlain = true
  single : ¬ [.char '/', .char '/'] <:+: s

instance (s : RawText) : Decidable s.IsName :=
  haveI := List.instDecidableIsInfixOfDecidableEq [Symbol.char '/', .char '/'] s
  decidable_of_iff (s ≠ [] ∧ (∀ c ∈ s, c.isPlain = true) ∧ ¬ [.char '/', .char '/'] <:+: s)
    ⟨fun ⟨present, plain, single⟩ => ⟨present, plain, single⟩, fun h => ⟨h.1, h.2, h.3⟩⟩

/-- A text in which no comment starts and no line ends. -/
structure Quiet (s : RawText) : Prop where
  symbols : ∀ c ∈ s, c ∉ [.char '#', .char ';', .char '\n']
  single : ¬ [.char '/', .char '/'] <:+: s

theorem isPlain_of_mem_letters : ∀ c ∈ letters, c.isPlain = true := by decide +kernel

theorem IsWord.isName {s : RawText} (word : s.IsWord) : s.IsName where
  present := word.1
  plain c member := isPlain_of_mem_letters c (word.2 c member)
  single := not_infix_of_not_mem (fun slash => absurd (word.2 _ slash) (by decide +kernel)) _

theorem IsName.inked {s : RawText} (name : s.IsName) : Inked Symbol.isBlank s := by
  refine .of_forall name.present fun c member => ?_
  have plain := name.plain c member
  simp only [Symbol.isPlain, Bool.and_eq_true, Bool.not_eq_true'] at plain
  exact plain.1

theorem IsName.not_mem {s : RawText} (name : s.IsName) {c : Symbol} (special : c.isPlain = false) :
    c ∉ s := by
  intro member
  rw [name.plain c member] at special
  cases special

theorem IsName.apart {s : RawText} (name : s.IsName) {marks : List Symbol}
    (special : ∀ c ∈ marks, c.isPlain = false) : ∀ c ∈ s, c ∉ marks :=
  fun c member mark => name.not_mem (special c mark) member

theorem IsName.quiet {s : RawText} (name : s.IsName) : s.Quiet :=
  ⟨name.apart (by decide), name.single⟩

theorem quiet_nil : Quiet [] := ⟨List.forall_mem_nil _, by simp⟩

/-- Two quiet texts with a symbol between them that has no meaning for comments. -/
theorem Quiet.append_cons {s t : RawText} (left : s.Quiet) (right : t.Quiet) {c : Symbol}
    (calm : c ∉ [.char '#', .char ';', .char '\n', .char '/']) : Quiet (s ++ c :: t) := by
  simp only [List.mem_cons, not_or] at calm
  refine ⟨List.forall_mem_append.2 ⟨left.symbols, List.forall_mem_cons.2 ⟨?_, right.symbols⟩⟩, ?_⟩
  · simp [calm]
  · intro found
    rcases twice_infix_append calm.2.2.2.1 found with front | back
    · exact left.single front
    · exact right.single back

end RawText

open RawText

/-! ## Splitting at commas -/

namespace Listing

/-- A text that is read to its end without a split. -/
def Passes (depth : Int) (t : RawText) : Prop :=
  ∀ part rest, splitCommas depth part (t ++ rest) = splitCommas depth (t.reverse ++ part) rest

namespace Passes

variable {depth : Int} {s t : RawText}

theorem append (left : Passes depth s) (right : Passes depth t) : Passes depth (s ++ t) := by
  intro part rest
  rw [List.append_assoc, left, right, List.reverse_append, List.append_assoc]

theorem of_forall (flat : ∀ c ∈ t, c ∉ [.char ',', .char '[', .char ']', .char '(', .char ')']) :
    Passes depth t := by
  intro part rest
  induction t generalizing part with
  | nil => rfl
  | cons c t ih =>
    have here := flat c List.mem_cons_self
    simp only [List.mem_cons, not_or] at here
    rw [List.cons_append, splitCommas, if_neg (by simp [here]), if_neg (by simp [here]),
      if_neg (by simp [here]), ih fun c later => flat c (List.mem_cons_of_mem _ later),
      List.reverse_cons, List.append_assoc, List.singleton_append]

theorem of_isName (name : t.IsName) : Passes depth t := of_forall (name.apart (by decide))

theorem enclosed {o c : Symbol} (opens : o = .char '[' ∨ o = .char '(')
    (closes : c = .char ']' ∨ c = .char ')') (inner : Passes (depth + 1) t) :
    Passes depth (o :: t ++ [c]) := by
  intro part rest
  have opened (r : RawText) : splitCommas depth part (o :: r) = splitCommas (depth + 1) (o :: part) r := by
    rw [splitCommas, if_neg (by rcases opens with rfl | rfl <;> simp), if_pos opens]
  have closed (p : RawText) : splitCommas (depth + 1) p (c :: rest) = splitCommas depth (c :: p) rest := by
    rw [splitCommas, if_neg (by rcases closes with rfl | rfl <;> simp),
      if_neg (by rcases closes with rfl | rfl <;> simp), if_pos closes, Int.add_sub_cancel]
  rw [List.append_assoc, List.cons_append, opened, List.singleton_append, inner, closed]
  simp

end Passes

/-- A text that may stand behind the labels of a line. -/
structure Content (t : RawText) : Prop where
  inked : Inked Symbol.isBlank t
  quiet : t.Quiet
  unlabelled : .char ':' ∉ t

/-- A text that may stand between the commas of a line. -/
structure Argument (t : RawText) : Prop extends Content t where
  passes : Passes 0 t

theorem Argument.of_isName {t : RawText} (name : t.IsName) : Argument t where
  inked := name.inked
  quiet := name.quiet
  unlabelled := name.not_mem (by decide)
  passes := .of_isName name

section
variable {t : RawText} {ts : List RawText}

theorem intercalate_cons_cons (t u : RawText) (ts : List RawText) :
    (ofString ", ").intercalate (t :: u :: ts)
      = t ++ .char ',' :: .char ' ' :: (ofString ", ").intercalate (u :: ts) := by
  rw [List.intercalate_cons_cons, List.append_assoc]
  rfl

theorem splitCommas_intercalate (arguments : ∀ u ∈ t :: ts, Argument u) (part : RawText) :
    splitCommas 0 part ((ofString ", ").intercalate (t :: ts))
      = (part.reverse ++ t) :: ts.map (.char ' ' :: ·) := by
  obtain ⟨first, others⟩ := List.forall_mem_cons.1 arguments
  induction ts generalizing t part with
  | nil =>
    have read := first.passes part []
    rw [List.append_nil] at read
    simp [read, splitCommas]
  | cons u ts ih =>
    -- the comma ends the text read so far, and the space behind it goes to the next one
    rw [intercalate_cons_cons, first.passes, splitCommas, if_pos ⟨rfl, rfl⟩, splitCommas,
      if_neg (by simp), if_neg (by simp), if_neg (by simp),
      ih others [.char ' '] (others u List.mem_cons_self)
        (fun v later => others v (List.mem_cons_of_mem _ later))]
    simp

theorem splitArgs_intercalate (arguments : ∀ u ∈ t :: ts, Argument u) :
    splitArgs ((ofString ", ").intercalate (t :: ts)) = t :: ts := by
  obtain ⟨first, others⟩ := List.forall_mem_cons.1 arguments
  have trimmed : ((t :: ts.map (.char ' ' :: ·)).map RawText.trim) = t :: ts := by
    have padded (u : RawText) (member : u ∈ ts) : RawText.trim (.char ' ' :: u) = u := by
      have strip : strip Symbol.isBlank ([.char ' '] ++ u ++ []) = u :=
        (others u member).inked.strip_padded (by decide) (List.forall_mem_nil _)
      rwa [List.append_nil] at strip
    rw [List.map_cons, List.map_map, trim_eq_self first.inked]
    exact congrArg (t :: ·) ((List.map_congr_left padded).trans (List.map_id ts))
  rw [splitArgs, splitCommas_intercalate arguments, List.reverse_nil, List.nil_append, trimmed]
  split
  · next empty =>
    cases empty
    exact absurd rfl first.inked.ne_nil
  · rfl

theorem content_intercalate (arguments : ∀ u ∈ t :: ts, Argument u) :
    Content ((ofString ", ").intercalate (t :: ts)) := by
  obtain ⟨first, others⟩ := List.forall_mem_cons.1 arguments
  induction ts generalizing t with
  | nil => simpa using first.toContent
  | cons u ts ih =>
    have rest := ih others (others u List.mem_cons_self)
      (fun v later => others v (List.mem_cons_of_mem _ later))
    rw [intercalate_cons_cons]
    constructor
    · simpa using first.inked.append [.char ',', .char ' '] rest.inked
    · exact first.quiet.append_cons (quiet_nil.append_cons rest.quiet (by decide)) (by decide)
    · simp [first.unlabelled, rest.unlabelled]

end

end Listing

/-! ## Operands that have a text of their own -/

def Reg.Valid (r : Reg) : Prop := 0 ≤ r.index ∧ r.index < 16

/-- Values are of 64 bits; the check leaves those that are not negative. -/
def Imm.Valid (i : Imm) : Prop := i.value < 2 ^ 63 ∧ i.check = .ok ()

def Disp.Valid (d : Disp) : Prop := d.value < 2 ^ 63 ∧ d.check = .ok ()

structure Mem.Valid (m : Mem) : Prop where
  base : m.base.Valid
  index : ∀ r ∈ m.index, r.Valid
  disp : m.disp.value < 2 ^ 63
  check : m.check = .ok ()

def Operand.Valid : Operand → Prop
  | .reg r => r.Valid
  | .mem m => m.Valid
  | .imm i => i.Valid

instance (x : Except Error Unit) : Decidable (x = .ok ()) :=
  match x with
  | .ok () => .isTrue rfl
  | .error _ => .isFalse nofun

instance (r : Reg) : Decidable r.Valid := inferInstanceAs (Decidable (_ ∧ _))

instance (i : Imm) : Decidable i.Valid := inferInstanceAs (Decidable (_ ∧ _))

instance (m : Mem) : Decidable m.Valid :=
  decidable_of_iff
    (m.base.Valid ∧ (∀ r ∈ m.index, r.Valid) ∧ m.disp.value < 2 ^ 63 ∧ m.check = .ok ())
    ⟨fun ⟨base, index, disp, check⟩ => ⟨base, index, disp, check⟩, fun h => ⟨h.1, h.2, h.3, h.4⟩⟩

instance (o : Operand) : Decidable o.Valid :=
  match o with
  | .reg r => inferInstanceAs (Decidable r.Valid)
  | .mem m => inferInstanceAs (Decidable m.Valid)
  | .imm i => inferInstanceAs (Decidable i.Valid)

theorem nonneg_of_insideMask {mask : UInt64} {n : Int} (inside : insideMask mask n = true) : 0 ≤ n := by
  simp only [insideMask, Bool.and_eq_true, decide_eq_true_eq] at inside
  exact inside.1

theorem Imm.named_of_check {i : Imm} (passed : i.check = .ok ()) :
    i.kind ∈ ImmClass.named ∧ 0 ≤ i.value := by
  unfold check at passed
  split at passed
  · next mask found =>
    refine ⟨?_, ?_⟩
    · cases kind : i.kind <;> simp_all [ImmClass.named, ImmClass.mask?]
    · split at passed
      · next inside => exact nonneg_of_insideMask inside
      · cases passed
  · cases passed

theorem Disp.named_of_check {d : Disp} (passed : d.check = .ok ()) :
    d.kind ∈ DispClass.named ∧ 0 ≤ d.value := by
  unfold check at passed
  split at passed
  · next mask found =>
    refine ⟨?_, ?_⟩
    · cases kind : d.kind <;> simp_all [DispClass.named, DispClass.mask?]
    · split at passed
      · next inside => exact nonneg_of_insideMask inside
      · cases passed
  · cases passed

theorem Mem.parts_of_check {m : Mem} (passed : m.check = .ok ()) :
    m.base.kind = .base ∧ (∀ r ∈ m.index, r.kind = .base) ∧ m.disp.check = .ok () := by
  obtain ⟨base, index, disp⟩ := m
  by_cases onBase : base.kind = .base
  · cases index with
    | none =>
      simp [check, onBase] at passed
      exact ⟨onBase, by simp, passed⟩
    | some r =>
      by_cases byBase : r.kind = .base
      · simp [check, onBase, byBase] at passed
        exact ⟨onBase, by simp [byBase], passed⟩
      · simp [check, onBase, byBase] at passed
        cases passed
  · simp [check, onBase] at passed
    cases passed

namespace Listing

theorem parseReg_text {r : Reg} (valid : r.Valid) :
    parseReg (ofString r.text) = .ok r ∧ (ofString r.text).IsWord := by
  obtain ⟨kind, index⟩ := r
  obtain ⟨n, rfl⟩ := Int.eq_ofNat_of_zero_le valid.1
  have all : ∀ kind ∈ [RegClass.vector, .base], ∀ n < 16,
      regOfName? (lower (ofString (Reg.text ⟨kind, (n : Nat)⟩)).trim.chars) = some ⟨kind, (n : Nat)⟩
        ∧ (ofString (Reg.text ⟨kind, (n : Nat)⟩)).IsWord := by
    decide +kernel
  obtain ⟨named, word⟩ := all kind (by cases kind <;> decide) n (Int.ofNat_lt.1 valid.2)
  rw [parseReg, named]
  exact ⟨rfl, word⟩

/-- The text of a class and a value. -/
def callText (name : String) (n : Int) : RawText :=
  ofString name ++ .char '(' :: (ofString (hex n) ++ [.char ')'])

theorem ofString_call (name : String) (n : Int) :
    ofString (name ++ "(" ++ hex n ++ ")") = callText name n := by
  simp only [ofString_append, callText, List.append_assoc]
  rfl

theorem isWord_hex {n : Int} (nonneg : 0 ≤ n) : (ofString (hex n)).IsWord := by
  have digits : ∀ d < 16, .char (hexDigit d) ∈ letters := by decide +kernel
  rw [ofString, toList_hex nonneg]
  refine ⟨List.cons_ne_nil _ _, fun c inside => ?_⟩
  obtain ⟨a, member, rfl⟩ := List.mem_map.1 inside
  simp only [List.mem_cons] at member
  rcases member with rfl | rfl | digit
  · decide +kernel
  · decide +kernel
  · obtain ⟨d, small, rfl⟩ := mem_hexDigits digit
    exact digits d small

section
variable {name : String} (word : (ofString name).IsWord) {n : Int}
include word

theorem inked_callText : Inked Symbol.isBlank (callText name n) := by
  have closed : Inked Symbol.isBlank [.char ')'] := .of_forall (by decide) (by decide)
  simpa [callText] using word.isName.inked.append (.char '(' :: ofString (hex n)) closed

variable (nonneg : 0 ≤ n)
include nonneg

theorem call?_callText (small : n < 2 ^ 63) :
    call? (callText name n) = some (lower name.toList, n) := by
  have digits := trim_eq_self (isWord_hex nonneg).isName.inked
  have front := trim_eq_self word.isName.inked
  rw [call?, callText, cut?_append (word.isName.not_mem (by decide))]
  simp [digits, front, readInt64_hex nonneg small, Except.toOption]

theorem passes_callText (depth : Int) : Passes depth (callText name n) :=
  .append (.of_isName word.isName)
    (.enclosed (.inr rfl) (.inr rfl) (.of_isName (isWord_hex nonneg).isName))

theorem mem_callText : ∀ c ∈ callText name n, c ∈ letters ++ ofString "()" := by
  have letter (c : Symbol) (member : c ∈ letters) : c ∈ letters ++ ofString "()" :=
    List.mem_append_left _ member
  simp only [callText, List.forall_mem_append, List.forall_mem_cons]
  exact ⟨fun c member => letter c (word.2 c member), by decide +kernel,
    fun c member => letter c ((isWord_hex nonneg).2 c member), by decide +kernel,
    List.forall_mem_nil _⟩

end

/-- No operand but a label holds a mark of a label or a comment. -/
theorem Argument.of_symbols {t : RawText} (inked : Inked Symbol.isBlank t) (passes : Passes 0 t)
    (symbols : ∀ c ∈ t, c ∈ letters ++ ofString "()[]+ ") : Argument t where
  inked := inked
  passes := passes
  unlabelled member := absurd (symbols _ member) (by decide +kernel)
  quiet := by
    refine ⟨fun c member special => ?_, not_infix_of_not_mem (fun slash => ?_) _⟩
    · have apart : ∀ c ∈ letters ++ ofString "()[]+ ", c ∉ [.char '#', .char ';', .char '\n'] := by
        decide +kernel
      exact apart c (symbols c member) special
    · exact absurd (symbols _ slash) (by decide +kernel)

theorem immClass?_text : ∀ c ∈ ImmClass.named,
    (ofString c.text).IsWord ∧ immClass? (lower c.text.toList) = some c := by decide +kernel

theorem dispClass?_text : ∀ c ∈ DispClass.named,
    (ofString c.text).IsWord ∧ dispClass? (lower c.text.toList) = some c := by decide +kernel

theorem parseImm_text {i : Imm} (valid : i.Valid) :
    parseImm (ofString i.text) = .ok i ∧ Argument (ofString i.text) := by
  obtain ⟨named, nonneg⟩ := i.named_of_check valid.2
  obtain ⟨word, found⟩ := immClass?_text i.kind named
  have inked := inked_callText word (n := i.value)
  rw [Imm.text, ofString_call]
  constructor
  · simp [parseImm, trim_eq_self inked, call?_callText word nonneg valid.1, found, valid.2,
      Functor.map, Except.map]
  · refine .of_symbols inked (passes_callText word nonneg 0) fun c member => ?_
    have few : ∀ c ∈ letters ++ ofString "()", c ∈ letters ++ ofString "()[]+ " := by decide +kernel
    exact few c (mem_callText word nonneg c member)

/-! ## Memory references -/

/-- The text of a part of a memory reference. -/
structure Part (t : RawText) (p : MemPart) : Prop where
  inked : Inked Symbol.isBlank t
  passes (depth : Int) : Passes depth t
  symbols : ∀ c ∈ t, c ∈ letters ++ ofString "()"
  read : memPart? t = some p

theorem Part.of_reg {r : Reg} (valid : r.Valid) (base : r.kind = .base) :
    Part (ofString r.text) (.reg r) := by
  obtain ⟨read, word⟩ := parseReg_text valid
  refine ⟨word.isName.inked, fun _ => .of_isName word.isName,
    fun c member => List.mem_append_left _ (word.2 c member), ?_⟩
  have closed : call? (ofString r.text) = none := by
    rw [call?, cut?_eq_none (word.isName.not_mem (by decide))]
    rfl
  simp [memPart?, trim_eq_self word.isName.inked, closed, read, base, Except.toOption]

theorem Part.of_disp {d : Disp} (valid : d.Valid) : Part (ofString d.text) (.disp d) := by
  obtain ⟨named, nonneg⟩ := d.named_of_check valid.2
  obtain ⟨word, found⟩ := dispClass?_text d.kind named
  have inked := inked_callText word (n := d.value)
  rw [Disp.text, ofString_call]
  refine ⟨inked, passes_callText word nonneg, mem_callText word nonneg, ?_⟩
  simp [memPart?, trim_eq_self inked, call?_callText word nonneg valid.1, found]

theorem Part.read_padded {t : RawText} {p : MemPart} (part : Part t p) (front back : RawText)
    (before : ∀ c ∈ front, c.isBlank = true) (after : ∀ c ∈ back, c.isBlank = true) :
    memPart? (front ++ t ++ back) = some p := by
  have padded : RawText.trim (front ++ t ++ back) = t := part.inked.strip_padded before after
  have read := part.read
  rw [memPart?, trim_eq_self part.inked] at read
  rw [memPart?, padded]
  exact read

theorem Part.not_mem {t : RawText} {p : MemPart} (part : Part t p) {c : Symbol}
    (other : c ∉ letters ++ ofString "()") : c ∉ t :=
  fun member => other (part.symbols c member)

def MemPart.text : MemPart → RawText
  | .reg r => ofString r.text
  | .disp d => ofString d.text

/-- Parts joined by a plus with a space on either side. -/
theorem mapM_memPart?_intercalate {p : MemPart} {ps : List MemPart}
    (parts : ∀ q ∈ p :: ps, Part q.text q) (front : RawText)
    (blank : ∀ c ∈ front, c = .char ' ') :
    (splitAt (.char '+') (front ++ (ofString " + ").intercalate ((p :: ps).map MemPart.text))).mapM
      memPart? = some (p :: ps) := by
  have before : ∀ c ∈ front, c.isBlank = true := fun c member => by rw [blank c member]; rfl
  induction ps generalizing p front with
  | nil =>
    have first := parts p List.mem_cons_self
    have free : .char '+' ∉ front ++ p.text := by
      rw [List.mem_append, not_or]
      exact ⟨fun member => absurd (blank _ member) (by decide), first.not_mem (by decide +kernel)⟩
    have read := first.read_padded front [] before (List.forall_mem_nil _)
    rw [List.append_nil] at read
    simp [splitAt_eq_single free, read]
  | cons q ps ih =>
    obtain ⟨first, others⟩ := List.forall_mem_cons.1 parts
    have free : .char '+' ∉ front ++ p.text ++ [.char ' '] := by
      rw [List.mem_append, List.mem_append, not_or, not_or]
      exact ⟨⟨fun member => absurd (blank _ member) (by decide), first.not_mem (by decide +kernel)⟩, by simp⟩
    have read := first.read_padded front [.char ' '] before (by decide)
    have rest := ih others [.char ' '] (by simp) (by decide)
    have cut : front ++ (ofString " + ").intercalate ((p :: q :: ps).map MemPart.text)
        = front ++ p.text ++ [.char ' '] ++ .char '+' :: ([.char ' ']
          ++ (ofString " + ").intercalate ((q :: ps).map MemPart.text)) := by
      simp only [List.map_cons, List.intercalate_cons_cons, List.append_assoc]
      rfl
    rw [cut, splitAt_append free, List.mapM_cons, read, rest]
    rfl

def memParts (m : Mem) : List MemPart :=
  .reg m.base :: (m.index.toList.map .reg ++ [.disp m.disp])

theorem part_of_memParts {m : Mem} (valid : m.Valid) : ∀ p ∈ memParts m, Part p.text p := by
  obtain ⟨base, index, disp⟩ := m.parts_of_check valid.check
  simp only [memParts, List.forall_mem_cons, List.forall_mem_append, List.forall_mem_map]
  refine ⟨.of_reg valid.base base, fun r member => ?_, .of_disp ⟨valid.disp, disp⟩,
    List.forall_mem_nil _⟩
  rw [Option.mem_toList] at member
  exact .of_reg (valid.index r member) (index r member)

theorem memOfParts?_memParts (m : Mem) : memOfParts? (memParts m) = some m := by
  obtain ⟨base, index, disp⟩ := m
  cases index <;> rfl

theorem ofString_listed (m : Mem) :
    ofString m.listed
      = .char '[' :: ((ofString " + ").intercalate ((memParts m).map MemPart.text) ++ [.char ']']) := by
  obtain ⟨base, index, disp⟩ := m
  cases index <;>
    simp [Mem.listed, memParts, MemPart.text, List.intercalate_cons_cons] <;> rfl

theorem passes_intercalate {p : MemPart} {ps : List MemPart}
    (parts : ∀ q ∈ p :: ps, Part q.text q) (depth : Int) :
    Passes depth ((ofString " + ").intercalate ((p :: ps).map MemPart.text)) ∧
      ∀ c ∈ (ofString " + ").intercalate ((p :: ps).map MemPart.text),
        c ∈ letters ++ ofString "()[]+ " := by
  have few : ∀ c ∈ letters ++ ofString "()", c ∈ letters ++ ofString "()[]+ " := by decide +kernel
  obtain ⟨first, others⟩ := List.forall_mem_cons.1 parts
  have symbols (c : Symbol) (member : c ∈ p.text) := few c (first.symbols c member)
  induction ps generalizing p with
  | nil =>
    rw [List.map_singleton, List.intercalate_singleton]
    exact ⟨first.passes depth, symbols⟩
  | cons q ps ih =>
    obtain ⟨passes, rest⟩ := ih others (others q List.mem_cons_self)
      (fun r later => others r (List.mem_cons_of_mem _ later))
      (fun c member => few c ((others q List.mem_cons_self).symbols c member))
    rw [List.map_cons, List.map_cons, List.intercalate_cons_cons, ← List.map_cons]
    refine ⟨((first.passes depth).append (.of_forall (by decide))).append passes, ?_⟩
    simp only [List.forall_mem_append]
    exact ⟨⟨symbols, by decide +kernel⟩, rest⟩

theorem parseMem_listed {m : Mem} (valid : m.Valid) :
    parseMem (ofString m.listed) = .ok m ∧ Argument (ofString m.listed) := by
  have parts := part_of_memParts valid
  have read := mapM_memPart?_intercalate parts [] (List.forall_mem_nil _)
  obtain ⟨passes, symbols⟩ := passes_intercalate parts (0 + 1)
  rw [← memParts, List.nil_append] at read
  rw [← memParts] at passes symbols
  rw [ofString_listed]
  have inked (t : RawText) : Inked Symbol.isBlank (.char '[' :: (t ++ [.char ']'])) :=
    ⟨⟨_, _, rfl, rfl⟩, .char '[' :: t, _, rfl, rfl⟩
  constructor
  · simp [parseMem, trim_eq_self (inked _), read, memOfParts?_memParts, valid.check, Functor.map,
      Except.map]
  · refine .of_symbols (inked _) (.enclosed (.inl rfl) (.inl rfl) passes) ?_
    simp only [List.forall_mem_append, List.forall_mem_cons]
    exact ⟨by decide +kernel, symbols, by decide +kernel, List.forall_mem_nil _⟩

theorem argument_listed {o : Operand} (valid : o.Valid) : Argument (ofString o.listed) := by
  cases o with
  | reg r => exact .of_isName (parseReg_text valid).2.isName
  | mem m => exact (parseMem_listed valid).2
  | imm i => exact (parseImm_text valid).2

end Listing

end LaneAsm
