import Typeahead.Proofs.Token.Writing
import Typeahead.Text.Offset

/-!
Which texts are listings. A text is read if all its lines have the form of an entry or are blank, and otherwise
the first line that is neither is reported.
-/

namespace Typeahead

open Text

section Numerals

variable {chars : List Char}

/-- A whole number in ASCII digits, at least one, with at most one sign in front. -/
inductive Numeral : List Char → Int → Prop where
  | unsigned {digits : List Char} (some : digits ≠ []) (all : ∀ c ∈ digits, c.isDigit = true) :
      Numeral digits (Nat.ofDigitChars 10 digits 0)
  | plus {digits : List Char} (some : digits ≠ []) (all : ∀ c ∈ digits, c.isDigit = true) :
      Numeral ('+' :: digits) (Nat.ofDigitChars 10 digits 0)
  | minus {digits : List Char} (some : digits ≠ []) (all : ∀ c ∈ digits, c.isDigit = true) :
      Numeral ('-' :: digits) (-(Nat.ofDigitChars 10 digits 0 : Nat))

theorem isDigit_of_digitsOnto? {value n : Nat} (read : digitsOnto? value chars = some n) :
    ∀ c ∈ chars, c.isDigit = true := by
  induction chars generalizing value with
  | nil => simp
  | cons c cs ih =>
    rw [digitsOnto?] at read
    split at read
    · rename_i digit
      exact List.forall_mem_cons.mpr ⟨digit, ih read⟩
    · cases read

theorem natOfDigits?_eq_some_iff {n : Nat} :
    natOfDigits? chars = some n ↔
      chars ≠ [] ∧ (∀ c ∈ chars, c.isDigit = true) ∧ Nat.ofDigitChars 10 chars 0 = n := by
  cases chars with
  | nil => simp [natOfDigits?]
  | cons c cs =>
    rw [natOfDigits?]
    constructor
    · intro read
      have all := isDigit_of_digitsOnto? read
      rw [digitsOnto?_of_isDigit all] at read
      exact ⟨List.cons_ne_nil c cs, all, Option.some.inj read⟩
    · rintro ⟨-, all, rfl⟩
      exact digitsOnto?_of_isDigit all 0

theorem intOfDigits?_minus (digits : List Char) :
    intOfDigits? ('-' :: digits) = (natOfDigits? digits).map fun n : Nat => -(n : Int) := by
  rw [intOfDigits?]
  cases natOfDigits? digits <;> rfl

theorem intOfDigits?_eq_some_iff {n : Int} : intOfDigits? chars = some n ↔ Numeral chars n := by
  constructor
  · intro read
    unfold intOfDigits? at read
    split at read
    · rename_i digits
      rw [← intOfDigits?.eq_1, intOfDigits?_minus] at read
      obtain ⟨value, found, rfl⟩ := Option.map_eq_some_iff.mp read
      obtain ⟨nonempty, all, rfl⟩ := natOfDigits?_eq_some_iff.mp found
      exact .minus nonempty all
    · obtain ⟨value, found, rfl⟩ := Option.map_eq_some_iff.mp read
      obtain ⟨nonempty, all, rfl⟩ := natOfDigits?_eq_some_iff.mp found
      exact .plus nonempty all
    · obtain ⟨value, found, rfl⟩ := Option.map_eq_some_iff.mp read
      obtain ⟨nonempty, all, rfl⟩ := natOfDigits?_eq_some_iff.mp found
      exact .unsigned nonempty all
  · intro numeral
    cases numeral with
    | unsigned nonempty all =>
      rw [intOfDigits?_of_isDigit all, natOfDigits?_eq_some_iff.mpr ⟨nonempty, all, rfl⟩]
      rfl
    | plus nonempty all =>
      rw [intOfDigits?, natOfDigits?_eq_some_iff.mpr ⟨nonempty, all, rfl⟩]
      rfl
    | minus nonempty all =>
      rw [intOfDigits?_minus, natOfDigits?_eq_some_iff.mpr ⟨nonempty, all, rfl⟩]
      rfl

theorem TokenId.exists_read?_iff :
    (∃ id, TokenId.read? chars = some id) ↔
      ∃ n, Numeral chars n ∧ -2147483648 ≤ n ∧ n ≤ 2147483647 := by
  simp only [TokenId.read?, Option.bind_eq_some_iff, intOfDigits?_eq_some_iff, TokenId.ofInt?]
  constructor
  · rintro ⟨id, n, numeral, found⟩
    split at found
    · rename_i range
      exact ⟨n, numeral, range⟩
    · cases found
  · rintro ⟨n, numeral, range⟩
    exact ⟨_, n, numeral, if_pos range⟩

end Numerals

namespace Entry

variable {key value line : List Char}

/-- A key of a literal, in quotes, or of a name, which does not begin with one. -/
def IsKey (key : List Char) : Prop :=
  2 ≤ byteLength key ∧ key.head? = some '\'' ∧ key.getLast? = some '\'' ∨
    key ≠ [] ∧ key.head? ≠ some '\''

/-- The form of an entry: a key, the last `=` of the line, and the number of an id, which may have blanks
around it. -/
def IsWritten (line : List Char) : Prop :=
  ∃ key value, line = key ++ '=' :: value ∧ '=' ∉ value ∧ IsKey key ∧
    ∃ numeral n, Trims value numeral ∧ Numeral numeral n ∧ -2147483648 ≤ n ∧ n ≤ 2147483647

theorem notMem_of_splitAtLastEquals (none : splitAtLastEquals line = none) : '=' ∉ line := by
  induction line with
  | nil => simp
  | cons c cs ih =>
    rw [splitAtLastEquals] at none
    split at none
    · cases none
    · rename_i behind
      split at none
      · cases none
      · rename_i other
        rw [List.mem_cons, not_or]
        exact ⟨Ne.symm other, ih behind⟩

theorem splitAtLastEquals_eq_some_iff :
    splitAtLastEquals line = some (key, value) ↔ line = key ++ '=' :: value ∧ '=' ∉ value := by
  constructor
  · intro split
    induction line generalizing key with
    | nil => cases split
    | cons c cs ih =>
      rw [splitAtLastEquals] at split
      split at split
      · rename_i front back found
        cases split
        obtain ⟨rfl, free⟩ := ih found
        exact ⟨rfl, free⟩
      · rename_i none
        split at split
        · rename_i equals
          cases split
          exact ⟨by rw [equals, List.nil_append], notMem_of_splitAtLastEquals none⟩
        · cases split
  · rintro ⟨rfl, free⟩
    exact splitAtLastEquals_append free key

theorem exists_ofKey?_iff (id : TokenId) : (∃ entry, ofKey? key id = some entry) ↔ IsKey key := by
  rw [ofKey?, IsKey]
  rcases key with _ | ⟨c, rest⟩
  · simp [unquote?]
  · by_cases quote : c = '\''
    · subst quote
      rcases rest with _ | ⟨d, rest⟩
      · have narrow : ¬ 2 ≤ byteLength ['\''] := by decide
        simp [unquote?, narrow]
      · have wide : 2 ≤ byteLength ('\'' :: d :: rest) := by
          have first := Char.utf8Size_pos '\''
          have second := d.utf8Size_pos
          simp only [byteLength]
          omega
        by_cases quoted : (d :: rest).getLast? = some '\''
        · simp [unquote?, quoted, wide]
        · simp [unquote?, quoted]
    · simp [unquote?_of_ne quote, quote]

theorem exists_ofLine?_iff : (∃ entry, ofLine? line = some entry) ↔ IsWritten line := by
  simp only [ofLine?, Option.bind_eq_some_iff]
  constructor
  · rintro ⟨entry, ⟨key, value⟩, split, id, read, made⟩
    obtain ⟨whole, free⟩ := splitAtLastEquals_eq_some_iff.mp split
    obtain ⟨n, numeral, range⟩ := TokenId.exists_read?_iff.mp ⟨id, read⟩
    exact ⟨key, value, whole, free, (exists_ofKey?_iff id).mp ⟨entry, made⟩, trim value, n, trims_trim value,
      numeral, range⟩
  · rintro ⟨key, value, whole, free, isKey, numeral, n, trims, number, range⟩
    obtain ⟨id, read⟩ := TokenId.exists_read?_iff.mpr ⟨n, number, range⟩
    obtain ⟨entry, made⟩ := (exists_ofKey?_iff id).mpr isKey
    rw [← trim_eq_iff.mpr trims] at read
    exact ⟨entry, (key, value), splitAtLastEquals_eq_some_iff.mpr ⟨whole, free⟩, id, read, made⟩

end Entry

namespace Vocabulary

variable {line : List Char} {lines : List (List Char)} {failure : MalformedLine}

/-- A line that a listing may have: it is blank, or an entry with any blanks around it. -/
def Fits (line : List Char) : Prop :=
  ∃ trimmed, Trims line trimmed ∧ (trimmed = [] ∨ Entry.IsWritten trimmed)

/-- The first line that does not fit, with the number of lines in front of it. -/
def FirstUnfit (lines : List (List Char)) (place : Nat) (line : List Char) : Prop :=
  lines[place]? = some line ∧ ¬ Fits line ∧ ∀ earlier ∈ lines.take place, Fits earlier

theorem linesOf_eq_splitOn (chars : List Char) : linesOf chars = chars.splitOn '\n' := by
  induction chars with
  | nil => rfl
  | cons c cs ih =>
    rw [linesOf, ih, List.splitOn_cons_eq_if_modifyHead]
    simp only [beq_iff_eq]
    split
    · rfl
    · cases split : cs.splitOn '\n' with
      | nil =>
        rw [List.splitOn_eq_splitOnP] at split
        exact absurd split (List.splitOnP_ne_nil _ cs)
      | cons line lines => rfl

theorem fits_iff : Fits line ↔ trim line = [] ∨ ∃ entry, Entry.ofLine? (trim line) = some entry := by
  rw [Entry.exists_ofLine?_iff, Fits]
  constructor
  · rintro ⟨trimmed, trims, form⟩
    rwa [trim_eq_iff.mpr trims]
  · exact fun form => ⟨trim line, trims_trim line, form⟩

theorem addLines_of_fits (fits : Fits line) (number : Nat) (vocabulary : Vocabulary) :
    ∃ later, ∀ lines, addLines number vocabulary (line :: lines) = addLines (number + 1) later lines := by
  rcases fits_iff.mp fits with blank | ⟨entry, read⟩
  · exact ⟨vocabulary, fun lines => by rw [addLines, if_pos blank]⟩
  · by_cases blank : trim line = []
    · exact ⟨vocabulary, fun lines => by rw [addLines, if_pos blank]⟩
    · refine ⟨vocabulary.add entry, fun lines => ?_⟩
      rw [addLines]
      simp only [if_neg blank, read]

theorem addLines_of_not_fits (unfit : ¬ Fits line) (number : Nat) (vocabulary : Vocabulary) :
    addLines number vocabulary (line :: lines) = .error ⟨number, String.ofList (trim line)⟩ := by
  obtain ⟨some, unread⟩ := not_or.mp (mt fits_iff.mpr unfit)
  have none : Entry.ofLine? (trim line) = none := by
    simpa [Option.eq_none_iff_forall_ne_some] using unread
  rw [addLines]
  simp only [if_neg some, none]

theorem addLines_accepts (number : Nat) (vocabulary : Vocabulary) :
    (∃ later, addLines number vocabulary lines = .ok later) ↔ ∀ line ∈ lines, Fits line := by
  induction lines generalizing number vocabulary with
  | nil => simp [addLines]
  | cons line lines ih =>
    rw [List.forall_mem_cons]
    by_cases fits : Fits line
    · obtain ⟨later, step⟩ := addLines_of_fits fits number vocabulary
      rw [step, ih]
      exact (and_iff_right fits).symm
    · rw [addLines_of_not_fits fits]
      simp [fits]

theorem firstUnfit_of_fits {place : Nat} {unfit : List Char} (fits : Fits line) :
    FirstUnfit (line :: lines) place unfit ↔
      ∃ before, place = before + 1 ∧ FirstUnfit lines before unfit := by
  cases place with
  | zero =>
    constructor
    · rintro ⟨first, other, -⟩
      cases first
      exact absurd fits other
    · rintro ⟨before, same, -⟩
      cases same
  | succ before => simp [FirstUnfit, fits]

theorem firstUnfit_of_not_fits {place : Nat} {unfit : List Char} (other : ¬ Fits line) :
    FirstUnfit (line :: lines) place unfit ↔ place = 0 ∧ unfit = line := by
  constructor
  · rintro ⟨found, -, earlier⟩
    cases place with
    | zero => exact ⟨rfl, (Option.some.inj found).symm⟩
    | succ before => exact absurd (earlier line List.mem_cons_self) other
  · rintro ⟨rfl, rfl⟩
    exact ⟨rfl, other, by simp⟩

theorem addLines_reports (number : Nat) (vocabulary : Vocabulary) :
    addLines number vocabulary lines = .error failure ↔
      ∃ place line, FirstUnfit lines place line ∧ failure.number = place + number ∧
        Trims line failure.text.toList := by
  induction lines generalizing number vocabulary with
  | nil => simp [addLines, FirstUnfit]
  | cons line lines ih =>
    by_cases fits : Fits line
    · obtain ⟨later, step⟩ := addLines_of_fits fits number vocabulary
      rw [step, ih]
      simp only [firstUnfit_of_fits fits]
      constructor
      · rintro ⟨place, unfit, first, counted, trims⟩
        exact ⟨place + 1, unfit, ⟨place, rfl, first⟩, by omega, trims⟩
      · rintro ⟨_, unfit, ⟨place, rfl, first⟩, counted, trims⟩
        exact ⟨place, unfit, first, by omega, trims⟩
    · rw [addLines_of_not_fits fits]
      simp only [firstUnfit_of_not_fits fits]
      constructor
      · rintro ⟨⟩
        refine ⟨0, line, ⟨rfl, rfl⟩, (Nat.zero_add number).symm, ?_⟩
        rw [String.toList_ofList]
        exact trims_trim line
      · rintro ⟨_, _, ⟨rfl, rfl⟩, counted, trims⟩
        have text := trim_eq_iff.mpr trims
        rw [text, String.ofList_toList, ← Nat.zero_add number, ← counted]

/-- A text is read if and only if all its lines fit. Otherwise what is reported is the first line that does not,
by its number, for which the blank lines count, and without the blanks around it. -/
theorem read_accepts (text : String) :
    ((∃ vocabulary, read text = .ok vocabulary) ↔ ∀ line ∈ text.toList.splitOn '\n', Fits line) ∧
    ∀ failure, read text = .error failure ↔
      ∃ place line, FirstUnfit (text.toList.splitOn '\n') place line ∧ failure.number = place + 1 ∧
        Trims line failure.text.toList := by
  rw [read, linesOf_eq_splitOn]
  exact ⟨addLines_accepts 1 initial, fun failure => addLines_reports 1 initial⟩

end Vocabulary

end Typeahead
