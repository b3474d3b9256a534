import Typeahead.Proofs.Text.Classes
import Typeahead.Proofs.Text.Trimming
import Typeahead.Token.Listing

/-!
Vocabularies written down. A listing of entries, one a line, is read as the vocabulary to which these entries
are added in their order, whatever their keys hold and however many blank lines stand between them.
-/

namespace Typeahead

open Text

section Numerals

variable {c : Char} {chars : List Char}

theorem digitsOnto?_of_isDigit (digits : ∀ c ∈ chars, c.isDigit = true) (value : Nat) :
    digitsOnto? value chars = some (Nat.ofDigitChars 10 chars value) := by
  induction chars generalizing value with
  | nil => rfl
  | cons c cs ih =>
    rw [digitsOnto?, if_pos (digits c List.mem_cons_self), Nat.ofDigitChars_cons,
      ih fun d held => digits d (List.mem_cons_of_mem c held)]

theorem natOfDigits?_toDigits (n : Nat) : natOfDigits? (Nat.toDigits 10 n) = some n := by
  have all : ∀ c ∈ Nat.toDigits 10 n, c.isDigit = true := fun c held =>
    Nat.isDigit_of_mem_toDigits (by decide) (by decide) held
  have value := digitsOnto?_of_isDigit all 0
  rw [Nat.ofDigitChars_toDigits (by decide) (by decide)] at value
  cases digits : Nat.toDigits 10 n with
  | nil => exact absurd digits Nat.toDigits_ne_nil
  | cons c cs => rwa [natOfDigits?, ← digits]

theorem intOfDigits?_of_isDigit (digits : ∀ c ∈ chars, c.isDigit = true) :
    intOfDigits? chars = (natOfDigits? chars).map Int.ofNat := by
  unfold intOfDigits?
  split
  · exact absurd (digits '-' List.mem_cons_self) (by decide)
  · exact absurd (digits '+' List.mem_cons_self) (by decide)
  · rfl

/-- A number is read as it is written. -/
theorem intOfDigits?_toString (n : Int) : intOfDigits? (toString n).toList = some n := by
  rw [Int.toString_eq_repr]
  cases n with
  | ofNat m =>
    rw [Int.repr, Nat.toList_repr, intOfDigits?_of_isDigit fun c held =>
      Nat.isDigit_of_mem_toDigits (by decide) (by decide) held, natOfDigits?_toDigits]
    rfl
  | negSucc m =>
    rw [Int.repr, String.toList_append, Nat.toList_repr]
    change (natOfDigits? (Nat.toDigits 10 (m + 1))).map (fun n => -(n : Int)) = _
    rw [natOfDigits?_toDigits]
    rfl

theorem mem_toString_int {n : Int} (held : c ∈ (toString n).toList) : c = '-' ∨ c.isDigit = true := by
  rw [Int.toString_eq_repr] at held
  cases n with
  | ofNat m =>
    rw [Int.repr, Nat.toList_repr] at held
    exact .inr (Nat.isDigit_of_mem_toDigits (by decide) (by decide) held)
  | negSucc m =>
    rw [Int.repr, String.toList_append, Nat.toList_repr, List.mem_append] at held
    rcases held with sign | digit
    · exact .inl (List.mem_singleton.mp sign)
    · exact .inr (Nat.isDigit_of_mem_toDigits (by decide) (by decide) digit)

end Numerals

namespace TokenId

/-- An id in decimal digits, with a minus in front if it is negative. -/
def written (id : TokenId) : String := toString id.toInt

variable {id : TokenId} {c : Char}

theorem ofInt?_toInt (id : TokenId) : ofInt? id.toInt = some id := by
  have least := id.code.le_toInt
  have most := id.code.toInt_lt
  rw [ofInt?, toInt, if_pos (by omega), Int32.ofInt_toInt]

theorem read?_written (id : TokenId) : read? id.written.toList = some id := by
  rw [read?, written, intOfDigits?_toString, Option.bind_some, ofInt?_toInt]

theorem written_ne (id : TokenId) : id.written.toList ≠ [] := by
  intro empty
  have read := id.read?_written
  rw [empty] at read
  cases read

theorem dark_of_mem_written (held : c ∈ id.written.toList) : isBlank c = false := by
  rcases mem_toString_int held with rfl | digit
  · decide
  · exact isBlank_of_isWord (isWord_of_isDigit digit)

theorem equals_not_mem_written (id : TokenId) : '=' ∉ id.written.toList := by
  intro held
  rcases mem_toString_int held with minus | digit
  · cases minus
  · exact absurd digit (by decide)

theorem trim_written (id : TokenId) : trim id.written.toList = id.written.toList := by
  have alone : trim (id.written.toList ++ []) = id.written.toList :=
    trim_append (by simp) (fun c first => dark_of_mem_written (List.mem_of_mem_head? first))
      fun c last => dark_of_mem_written (List.mem_of_mem_getLast? last)
  rwa [List.append_nil] at alone

end TokenId

namespace Entry

/-- The line of an entry in a listing. -/
def written : Entry → String
  | .literal text id => "'" ++ text ++ "'=" ++ id.written
  | .name key id => key ++ "=" ++ id.written

/-- An entry has room on a line and can be told from others there: no line feed is in its key, and a name is
not empty and begins with neither a quote nor a blank. -/
def Writable : Entry → Prop
  | .literal text _ => '\n' ∉ text.toList
  | .name key _ => '\n' ∉ key.toList ∧ key ≠ "" ∧ ∀ c ∈ key.toList.head?, c ≠ '\'' ∧ isBlank c = false

instance : (entry : Entry) → Decidable entry.Writable
  | .literal text _ => inferInstanceAs (Decidable ('\n' ∉ text.toList))
  | .name key _ =>
    have := Option.decidableForallMem (p := fun c => c ≠ '\'' ∧ isBlank c = false) key.toList.head?
    inferInstanceAs (Decidable ('\n' ∉ key.toList ∧ key ≠ "" ∧
      ∀ c ∈ key.toList.head?, c ≠ '\'' ∧ isBlank c = false))

def id : Entry → TokenId
  | .literal _ id => id
  | .name _ id => id

/-- What stands on a line in front of the id and the sign before it. -/
def key : Entry → List Char
  | .literal text _ => '\'' :: (text.toList ++ ['\''])
  | .name key _ => key.toList

variable {entry : Entry} {back : List Char}

theorem toList_written (entry : Entry) :
    entry.written.toList = entry.key ++ '=' :: entry.id.written.toList := by
  cases entry <;> simp [written, key, id]

section Keys

theorem splitAtLastEquals_eq_none {chars : List Char} (free : '=' ∉ chars) :
    splitAtLastEquals chars = none := by
  induction chars with
  | nil => rfl
  | cons c cs ih =>
    obtain ⟨other, free⟩ := not_or.mp (mt List.mem_cons.mpr free)
    rw [splitAtLastEquals, ih free]
    exact if_neg (Ne.symm other)

/-- A key may hold the sign that parts it from its value, since the last one does. -/
theorem splitAtLastEquals_append {value : List Char} (free : '=' ∉ value) (key : List Char) :
    splitAtLastEquals (key ++ '=' :: value) = some (key, value) := by
  induction key with
  | nil =>
    rw [List.nil_append, splitAtLastEquals, splitAtLastEquals_eq_none free]
    rfl
  | cons c key ih => rw [List.cons_append, splitAtLastEquals, ih]

theorem unquote?_quoted (chars : List Char) : unquote? ('\'' :: (chars ++ ['\''])) = some chars := by
  cases chars with
  | nil => rfl
  | cons c cs =>
    rw [List.cons_append, unquote?, ← List.cons_append, List.getLast?_concat, if_pos rfl,
      List.dropLast_concat]

theorem unquote?_of_ne {c : Char} (other : c ≠ '\'') (rest : List Char) : unquote? (c :: rest) = none := by
  rw [unquote?]
  rintro _ _ ⟨⟩
  exact other rfl

theorem Writable.ofKey?_key (writable : entry.Writable) : ofKey? entry.key entry.id = some entry := by
  cases entry with
  | literal text id =>
    rw [ofKey?, key, unquote?_quoted]
    simp [Entry.id]
  | name name id =>
    obtain ⟨_, nonempty, first⟩ := writable
    obtain ⟨c, rest, spelled⟩ := List.exists_cons_of_ne_nil (mt String.toList_eq_nil_iff.mp nonempty)
    rw [spelled] at first
    have other := (first c rfl).1
    have whole : String.ofList (c :: rest) = name := by rw [← spelled, String.ofList_toList]
    rw [ofKey?, key, spelled, unquote?_of_ne other]
    simp [other, whole, Entry.id]

theorem Writable.key_begins (writable : entry.Writable) :
    ∃ c rest, entry.key = c :: rest ∧ isBlank c = false := by
  cases entry with
  | literal text id => exact ⟨_, _, rfl, by decide⟩
  | name name id =>
    obtain ⟨_, nonempty, first⟩ := writable
    obtain ⟨c, rest, spelled⟩ := List.exists_cons_of_ne_nil (mt String.toList_eq_nil_iff.mp nonempty)
    rw [spelled] at first
    exact ⟨c, rest, spelled, (first c rfl).2⟩

theorem Writable.feed_not_mem_key (writable : entry.Writable) : '\n' ∉ entry.key := by
  cases entry with
  | literal text id =>
    have free : '\n' ∉ text.toList := writable
    simp [key, free]
  | name name id => exact writable.1

end Keys

section Lines

theorem ofLine?_written (writable : entry.Writable) : ofLine? entry.written.toList = some entry := by
  rw [toList_written, ofLine?, splitAtLastEquals_append entry.id.equals_not_mem_written, Option.bind_some,
    TokenId.trim_written, TokenId.read?_written, Option.bind_some, writable.ofKey?_key]

theorem feed_not_mem_written (writable : entry.Writable) : '\n' ∉ entry.written.toList := by
  rw [toList_written, List.mem_append, List.mem_cons]
  rintro (inKey | equals | inId)
  · exact writable.feed_not_mem_key inKey
  · cases equals
  · exact absurd (TokenId.dark_of_mem_written inId) (by decide)

/-- The line of an entry is all that is left without the blanks behind it. -/
theorem trim_written (writable : entry.Writable) (behind : ∀ c ∈ back, isBlank c = true) :
    trim (entry.written.toList ++ back) = entry.written.toList := by
  obtain ⟨c, rest, begins, dark⟩ := writable.key_begins
  have parts : entry.written.toList = c :: (rest ++ '=' :: entry.id.written.toList) := by
    rw [toList_written, begins, List.cons_append]
  have ends := List.getLast?_eq_some_getLast entry.id.written_ne
  have last : entry.written.toList.getLast? = entry.id.written.toList.getLast? := by
    rw [toList_written, List.getLast?_append, List.getLast?_cons, Option.some_or, ends, Option.getD_some]
  refine trim_append behind ?_ ?_
  · rw [parts]
    rintro _ ⟨⟩
    exact dark
  · rw [last]
    exact fun d held => TokenId.dark_of_mem_written (List.mem_of_mem_getLast? held)

end Lines

end Entry

namespace Vocabulary

section Lines

variable {line : List Char}

theorem linesOf_line (whole : '\n' ∉ line) : linesOf line = [line] := by
  induction line with
  | nil => rfl
  | cons c line ih =>
    obtain ⟨other, whole⟩ := not_or.mp (mt List.mem_cons.mpr whole)
    rw [linesOf, if_neg (Ne.symm other), ih whole]

theorem linesOf_append (whole : '\n' ∉ line) (rest : List Char) :
    linesOf (line ++ '\n' :: rest) = line :: linesOf rest := by
  induction line with
  | nil => rw [List.nil_append, linesOf, if_pos rfl]
  | cons c line ih =>
    obtain ⟨other, whole⟩ := not_or.mp (mt List.mem_cons.mpr whole)
    rw [List.cons_append, linesOf, if_neg (Ne.symm other), ih whole]

theorem addLines_blank {number : Nat} {vocabulary : Vocabulary} {lines : List (List Char)}
    (blank : ∀ c ∈ line, isBlank c = true) :
    addLines number vocabulary (line :: lines) = addLines (number + 1) vocabulary lines := by
  rw [addLines, trim_eq_nil blank]
  rfl

theorem addLines_entry {number : Nat} {vocabulary : Vocabulary} {lines : List (List Char)} {entry : Entry}
    (writable : entry.Writable) {back : List Char} (behind : ∀ c ∈ back, isBlank c = true) :
    addLines number vocabulary ((entry.written.toList ++ back) :: lines) =
      addLines (number + 1) (vocabulary.add entry) lines := by
  have some : entry.written.toList ≠ [] := by simp [Entry.toList_written]
  rw [addLines, Entry.trim_written writable behind]
  simp only [if_neg some, Entry.ofLine?_written writable]

end Lines

/-- What may end a line. -/
inductive LineEnd : String → Prop where
  | feed : LineEnd "\n"
  | returned : LineEnd "\r\n"

/-- Nothing but blanks, all on one line. -/
def BlankLine (line : String) : Prop := ∀ c ∈ line.toList, isBlank c = true ∧ c ≠ '\n'

instance (line : String) : Decidable (BlankLine line) :=
  List.decidableBAll (fun c => isBlank c = true ∧ c ≠ '\n') line.toList

/-- Texts that list entries: each stands on a line of its own, with any blank lines between. The last line
may be empty, and needs no end. -/
inductive Lists : List Entry → String → Prop where
  | blank {entries : List Entry} {line ending rest : String} (blank : BlankLine line) (ends : LineEnd ending)
      (others : Lists entries rest) : Lists entries (line ++ ending ++ rest)
  | entry (entry : Entry) {entries : List Entry} {ending rest : String} (ends : LineEnd ending)
      (others : Lists entries rest) : Lists (entry :: entries) (entry.written ++ ending ++ rest)
  | lastBlank {line : String} (blank : BlankLine line) : Lists [] line
  | lastEntry (entry : Entry) : Lists [entry] entry.written

variable {entries : List Entry} {text : String}

theorem LineEnd.split {ending : String} (ends : LineEnd ending) :
    ∃ back, ending.toList = back ++ ['\n'] ∧ '\n' ∉ back ∧ ∀ c ∈ back, isBlank c = true := by
  cases ends with
  | feed => exact ⟨[], rfl, by simp, by simp⟩
  | returned => exact ⟨['\r'], rfl, by decide, List.forall_mem_singleton.mpr (by decide)⟩

theorem addLines_lists (writable : ∀ entry ∈ entries, entry.Writable) (lists : Lists entries text) (number : Nat)
    (vocabulary : Vocabulary) :
    addLines number vocabulary (linesOf text.toList) = .ok (entries.foldl add vocabulary) := by
  induction lists generalizing number vocabulary with
  | @blank entries line ending rest blank ends _ ih =>
    obtain ⟨back, spelled, whole, blanks⟩ := ends.split
    have split : (line ++ ending ++ rest).toList = line.toList ++ back ++ '\n' :: rest.toList := by
      simp [spelled]
    rw [split, linesOf_append, addLines_blank, ih writable]
    · intro c held
      exact (List.mem_append.mp held).elim (fun held => (blank c held).1) (blanks c)
    · rw [List.mem_append]
      exact not_or.mpr ⟨fun held => (blank _ held).2 rfl, whole⟩
  | @entry entry entries ending rest ends _ ih =>
    obtain ⟨here, others⟩ := List.forall_mem_cons.mp writable
    obtain ⟨back, spelled, whole, blanks⟩ := ends.split
    have split : (entry.written ++ ending ++ rest).toList =
        entry.written.toList ++ back ++ '\n' :: rest.toList := by simp [spelled]
    rw [split, linesOf_append, addLines_entry here blanks, ih others, List.foldl_cons]
    rw [List.mem_append]
    exact not_or.mpr ⟨Entry.feed_not_mem_written here, whole⟩
  | @lastBlank line blank =>
    rw [linesOf_line fun held => (blank _ held).2 rfl, addLines_blank fun c held => (blank c held).1]
    rfl
  | lastEntry entry =>
    have here := writable entry List.mem_cons_self
    have read : addLines number vocabulary [entry.written.toList ++ []] = .ok (vocabulary.add entry) :=
      addLines_entry here (by simp)
    rwa [List.append_nil, ← linesOf_line (Entry.feed_not_mem_written here)] at read

/-- Reading undoes writing: a listing of entries is read as the vocabulary that has them all added in their
order. -/
theorem read_lists (writable : ∀ entry ∈ entries, entry.Writable) (lists : Lists entries text) :
    read text = .ok (entries.foldl add initial) := addLines_lists writable lists 1 initial

/-- Keys that hold quotes, signs and blanks, one of them registered again under another id. -/
theorem read_lists_again :
    let first : Entry := .literal "" ⟨-1⟩
    let second : Entry := .name "a='b " ⟨5⟩
    let third : Entry := .literal "= '" ⟨-2147483648⟩
    let fourth : Entry := .name "a='b " ⟨7⟩
    (∀ entry ∈ [first, second, third, fourth], entry.Writable) ∧
      Lists [first, second, third, fourth] "''=-1\r\n\t\na='b =5\n'= ''=-2147483648\r\na='b =7" ∧
      read "''=-1\r\n\t\na='b =5\n'= ''=-2147483648\r\na='b =7" =
        .ok ⟨[fourth, third, second, first, .name "EOF" .eof]⟩ := by
  intro first second third fourth
  have writable : ∀ entry ∈ [first, second, third, fourth], entry.Writable := by decide +kernel
  have blank : BlankLine "\t" := by decide +kernel
  have lists := Lists.entry first .returned (.blank blank .feed (.entry second .feed
    (.entry third .returned (.lastEntry fourth))))
  have text : first.written ++ "\r\n" ++ ("\t" ++ "\n" ++ (second.written ++ "\n" ++
      (third.written ++ "\r\n" ++ fourth.written))) =
      "''=-1\r\n\t\na='b =5\n'= ''=-2147483648\r\na='b =7" := by decide +kernel
  rw [text] at lists
  exact ⟨writable, lists, read_lists writable lists⟩

end Vocabulary

end Typeahead
