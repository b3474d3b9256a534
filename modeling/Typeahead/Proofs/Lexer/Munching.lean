import Mathlib.Order.Bounds.Basic
import Mathlib.Order.WellFounded
import Typeahead.Proofs.Lexer.Stability

/-!
What the token at a place of a text is. It belongs to the first class that has one beginning there, and goes
as far as that class lets it: the longest literal, or the longest run. So no word is cut in two, unless by a
number.
-/

namespace Typeahead

namespace Text

/-- All characters of a piece belong to a class, and none that does stands behind it. -/
structure MaximalRun (belongs : Char → Bool) (piece behind : List Char) : Prop where
  belong : ∀ c ∈ piece, belongs c = true
  ended : behind.head?.any belongs = false

/-- Whether the meaning of a character is taken away by a backslash in front of it, which has kept its own. -/
def isEscaped (chars : List Char) : (place : Nat) → Bool
  | 0 => false
  | before + 1 => chars[before]? == some '\\' && !isEscaped chars before

def ClosesAt (chars : List Char) (place : Nat) : Prop :=
  chars[place]? = some '"' ∧ isEscaped chars place = false

/-- How many characters belong to a quoted string behind its opening quote: those up to the first quote that is
not escaped, or all of them. -/
inductive QuotedExtent (chars : List Char) : (size : Nat) → Prop where
  | closed {place : Nat} (first : IsLeast {place | ClosesAt chars place} place) :
      QuotedExtent chars (place + 1)
  | unclosed (never : ∀ place, ¬ ClosesAt chars place) : QuotedExtent chars chars.length

/-- A maximal run of digits, with a point and the maximal run of digits behind it if there is one. -/
inductive Decimal : (piece behind : List Char) → Prop where
  | whole {digits behind : List Char} (run : MaximalRun Char.isDigit digits behind)
      (none : ∀ d more, behind = '.' :: d :: more → d.isDigit = false) : Decimal digits behind
  | fractional {digits decimals behind : List Char}
      (run : MaximalRun Char.isDigit digits ('.' :: decimals ++ behind))
      (some : decimals ≠ []) (more : MaximalRun Char.isDigit decimals behind) :
      Decimal (digits ++ '.' :: decimals) behind

end Text

open Text

/-- A literal stands at the front of a text: it is not empty, and does not both end like a word and stand
before one. -/
structure Vocabulary.Stands (vocabulary : Vocabulary) (chars : List Char) (text : String) (id : TokenId) :
    Prop where
  known : vocabulary.literalId? text = some id
  nonempty : text ≠ ""
  front : text.toList <+: chars
  alone : ¬ (text.toList.getLast?.any isWord = true ∧
    (chars.drop text.toList.length).head?.any isWord = true)

/-- The classes of tokens, in the order in which they are looked for. -/
inductive TokenClass where
  | blank
  | quoted
  | literal
  | identifier
  | number
  | invalid
deriving DecidableEq

namespace TokenClass

def rank : TokenClass → Nat
  | blank => 0
  | quoted => 1
  | literal => 2
  | identifier => 3
  | number => 4
  | invalid => 5

/-- Whether a token of a class can begin at the front of a text. -/
def Opens (lexicon : Lexicon) (chars : List Char) : TokenClass → Prop
  | blank => chars.head?.any isBlank = true
  | quoted => lexicon.quoted.isSome = true ∧ chars.head? = some '"'
  | literal => ∃ text id, lexicon.vocabulary.Stands chars text id
  | identifier => lexicon.identifier.isSome = true ∧ chars.head?.any isWordStart = true
  | number => lexicon.number.isSome = true ∧ chars.head?.any Char.isDigit = true
  | invalid => True

/-- What a token of a class is, where `behind` stands behind it. -/
def Takes (lexicon : Lexicon) (token : Token) (behind : List Char) : TokenClass → Prop
  | blank => token.id = lexicon.blankId ∧ MaximalRun isBlank token.text.toList behind
  | quoted => lexicon.quoted = some token.id ∧ ∃ body, token.text.toList = '"' :: body ∧
      QuotedExtent (body ++ behind) body.length
  | literal => lexicon.vocabulary.Stands (token.text.toList ++ behind) token.text token.id ∧
      ∀ other id, lexicon.vocabulary.Stands (token.text.toList ++ behind) other id →
        other.length ≤ token.text.length
  | identifier => lexicon.identifier = some token.id ∧ MaximalRun isWord token.text.toList behind
  | number => lexicon.number = some token.id ∧ Decimal token.text.toList behind
  | invalid => token.id = .invalid ∧
      if token.text.toList.head?.any isWord then MaximalRun isWord token.text.toList behind
      else token.text.length = 1

end TokenClass

/-- A token is of the first class that can begin where it stands. Blanks alone are hidden. -/
structure Lexicon.Reads (lexicon : Lexicon) (kind : TokenClass) (token : Token) (behind : List Char) :
    Prop where
  opens : kind.Opens lexicon (token.text.toList ++ behind)
  first : ∀ earlier : TokenClass, earlier.rank < kind.rank →
    ¬ earlier.Opens lexicon (token.text.toList ++ behind)
  takes : kind.Takes lexicon token behind
  channel : token.channel = if kind = .blank then .hidden else .default

namespace Text

variable {chars rest : List Char} {c : Char}

section Quotes

theorem not_closesAt_nil (place : Nat) : ¬ ClosesAt [] place := by
  rintro ⟨quote, _⟩
  cases quote

theorem not_closesAt_zero (apart : c ≠ '"') : ¬ ClosesAt (c :: rest) 0 := by
  rintro ⟨quote, _⟩
  exact apart (Option.some.inj quote)

theorem isEscaped_cons (plain : c ≠ '\\') (place : Nat) :
    isEscaped (c :: rest) (place + 1) = isEscaped rest place := by
  induction place with
  | zero => simp [isEscaped, plain]
  | succ place ih => rw [isEscaped, ih, isEscaped, List.getElem?_cons_succ]

theorem isEscaped_escape (place : Nat) :
    isEscaped ('\\' :: c :: rest) (place + 2) = isEscaped rest place := by
  induction place with
  | zero => simp [isEscaped]
  | succ place ih => rw [isEscaped, ih, isEscaped, List.getElem?_cons_succ, List.getElem?_cons_succ]

/-- If nothing is closed within some characters, it matters what is behind them. -/
theorem QuotedExtent.behind {count size : Nat} (extent : QuotedExtent rest size)
    (length : chars.length = count + rest.length)
    (inside : ∀ place, place < count → ¬ ClosesAt chars place)
    (behind : ∀ place, ClosesAt chars (count + place) ↔ ClosesAt rest place) :
    QuotedExtent chars (count + size) := by
  cases extent with
  | @closed place first =>
    refine .closed ⟨(behind place).mpr first.1, fun other closes => ?_⟩
    by_cases within : other < count
    · exact (inside other within closes).elim
    · obtain ⟨later, rfl⟩ := Nat.exists_eq_add_of_le (Nat.le_of_not_lt within)
      exact Nat.add_le_add_left (first.2 ((behind later).mp closes)) count
  | unclosed never =>
    rw [← length]
    refine .unclosed fun place closes => ?_
    by_cases within : place < count
    · exact inside place within closes
    · obtain ⟨later, rfl⟩ := Nat.exists_eq_add_of_le (Nat.le_of_not_lt within)
      exact never later ((behind later).mp closes)

/-- A quoted string goes on to the end, or ends with a quote. -/
theorem QuotedExtent.closed_or_whole {size : Nat} (extent : QuotedExtent chars size) :
    chars.length ≤ size ∨ (chars.take size).getLast? = some '"' := by
  cases extent with
  | closed first =>
    rw [List.take_add_one, first.1.1]
    exact .inr List.getLast?_concat
  | unclosed => exact .inl (Nat.le_refl _)

theorem quotedExtent_quotedTail (chars : List Char) : QuotedExtent chars (Lexicon.quotedTail chars) := by
  induction chars using Lexicon.quotedTail.induct with
  | case1 => exact .unclosed not_closesAt_nil
  | case2 =>
    refine .unclosed fun place closes => ?_
    cases place with
    | zero => exact not_closesAt_zero (by decide) closes
    | succ place => exact not_closesAt_nil place ⟨closes.1, by cases place <;> rfl⟩
  | case3 c rest ih =>
    rw [Lexicon.quotedTail]
    refine ih.behind (by simp only [List.length_cons]; omega) (fun place within => ?_) fun place => ?_
    · have cases : place = 0 ∨ place = 1 := by omega
      rcases cases with rfl | rfl
      · exact not_closesAt_zero (by decide)
      · rintro ⟨_, unescaped⟩
        simp [isEscaped] at unescaped
    · rw [ClosesAt, ClosesAt, Nat.add_comm, isEscaped_escape]
      rfl
  | case4 rest _ _ =>
    rw [Lexicon.quotedTail, if_pos rfl]
    · exact .closed ⟨⟨rfl, rfl⟩, fun _ _ => Nat.zero_le _⟩
    · exact fun same => by cases same
    · exact fun _ _ same => by cases same
  | case5 c rest plain escape apart ih =>
    have unescaped : c ≠ '\\' := by
      rintro rfl
      cases rest with
      | nil => exact plain rfl rfl
      | cons d rest => exact escape d rest rfl rfl
    rw [Lexicon.quotedTail_of_ne unescaped apart]
    refine ih.behind (by rw [List.length_cons, Nat.add_comm]) (fun place within => ?_) fun place => ?_
    · rw [Nat.lt_one_iff.mp within]
      exact not_closesAt_zero apart
    · rw [ClosesAt, ClosesAt, Nat.add_comm, isEscaped_cons unescaped]
      rfl

end Quotes

section Runs

variable {belongs : Char → Bool}

theorem MaximalRun.not_more {piece behind : List Char} {next : Char}
    (run : MaximalRun belongs piece behind) (goes : behind.head? = some next) : belongs next = false := by
  have ended := run.ended
  rwa [goes, Option.any_some] at ended

theorem maximalRun_run (belongs : Char → Bool) (chars : List Char) :
    MaximalRun belongs (chars.take (run belongs chars)) (chars.drop (run belongs chars)) :=
  ⟨fun _ => mem_take_run, head?_drop_run belongs chars⟩

theorem MaximalRun.cons {piece behind : List Char} (run : MaximalRun belongs piece behind)
    (first : belongs c = true) : MaximalRun belongs (c :: piece) behind :=
  ⟨List.forall_mem_cons.mpr ⟨first, run.belong⟩, run.ended⟩

theorem maximalRun_ofList (first : belongs c = true) (rest : List Char) :
    MaximalRun belongs (String.ofList (c :: rest.take (run belongs rest))).toList
      (rest.drop (run belongs rest)) := by
  rw [String.toList_ofList]
  exact (maximalRun_run belongs rest).cons first

theorem fraction_cases (chars : List Char) :
    (Lexicon.fraction chars = 0 ∧ ∀ d more, chars = '.' :: d :: more → d.isDigit = false) ∨
      ∃ d more, chars = '.' :: d :: more ∧ d.isDigit = true ∧
        Lexicon.fraction chars = 2 + run Char.isDigit more := by
  unfold Lexicon.fraction
  split
  · rename_i d more
    split
    · rename_i digit
      exact .inr ⟨d, more, rfl, digit, rfl⟩
    · rename_i other
      refine .inl ⟨rfl, ?_⟩
      rintro _ _ ⟨⟩
      exact Bool.eq_false_iff.mpr other
  · rename_i pointless
    exact .inl ⟨rfl, fun d more same => (pointless d more same).elim⟩

theorem decimal_numberTail (digit : c.isDigit = true) (rest : List Char) :
    Decimal (c :: rest.take (Lexicon.numberTail rest)) (rest.drop (Lexicon.numberTail rest)) := by
  have digits := (maximalRun_run Char.isDigit rest).cons digit
  rw [Lexicon.numberTail, List.take_add, ← List.drop_drop]
  generalize rest.take (run Char.isDigit rest) = front at digits ⊢
  generalize rest.drop (run Char.isDigit rest) = behind at digits ⊢
  rcases fraction_cases behind with ⟨none, fits⟩ | ⟨d, more, rfl, fractional, size⟩
  · rw [none, List.take_zero, List.append_nil, List.drop_zero]
    exact .whole digits fits
  · rw [size, Nat.add_comm, List.take_succ_cons, List.take_succ_cons, List.drop_succ_cons,
      List.drop_succ_cons]
    refine @Decimal.fractional (c :: front) _ _ ?_ (List.cons_ne_nil _ _)
      ((maximalRun_run Char.isDigit more).cons fractional)
    rw [List.cons_append, List.cons_append, List.take_append_drop]
    exact digits

end Runs

end Text

namespace Lexicon

variable {lexicon : Lexicon} {c : Char} {rest behind : List Char} {kind : TokenClass} {token : Token}

section Literals

theorem standsAt_of_stands {chars : List Char} {text : String} {id : TokenId}
    (stands : lexicon.vocabulary.Stands chars text id) :
    (text.toList, id) ∈ lexicon.spellings ∧ standsAt chars text.toList = true :=
  ⟨lexicon.mem_spellings stands.known,
    standsAt_iff.mpr ⟨mt String.toList_eq_nil_iff.mp stands.nonempty, stands.front, stands.alone⟩⟩

theorem standsAt_literal {spellings : List (List Char × TokenId)} {lexeme : Lexeme}
    (found : literalAt? spellings c rest = some lexeme) :
    standsAt (c :: rest) (c :: rest.take lexeme.more) = true := by
  obtain ⟨spelling, best, rfl⟩ := Option.map_eq_some_iff.mp found
  have stands := (List.mem_filter.mp (longest_eq_some best).1).2
  obtain ⟨nonempty, ⟨behind, whole⟩, _⟩ := standsAt_iff.mp stands
  cases chars : spelling.1 with
  | nil => exact absurd chars nonempty
  | cons d front =>
    rw [chars, List.cons_append] at whole
    obtain ⟨rfl, rfl⟩ := List.cons.inj whole
    rw [chars] at stands
    rwa [List.length_cons, Nat.add_sub_cancel, List.take_left]

/-- What is found as a literal is the longest one that stands there. -/
theorem longest_literal {lexeme : Lexeme} (found : literalAt? lexicon.spellings c rest = some lexeme) :
    lexicon.vocabulary.Stands (c :: rest) (String.ofList (c :: rest.take lexeme.more)) lexeme.id ∧
      ∀ other id, lexicon.vocabulary.Stands (c :: rest) other id →
        other.length ≤ (String.ofList (c :: rest.take lexeme.more)).length := by
  obtain ⟨text, known, _, front, bound⟩ := literalAt?_eq_some found
  obtain ⟨nonempty, place, alone⟩ := standsAt_iff.mp (standsAt_literal found)
  rw [← front] at nonempty place alone
  rw [← front, String.ofList_toList]
  refine ⟨⟨known, mt String.toList_eq_nil_iff.mpr nonempty, place, alone⟩, fun other id stands => ?_⟩
  obtain ⟨listed, standsAt⟩ := standsAt_of_stands stands
  exact bound _ listed standsAt

end Literals

section Classes

/-- No token of the first classes can begin at the front of a text. -/
def Shut (lexicon : Lexicon) (chars : List Char) (count : Nat) : Prop :=
  ∀ earlier : TokenClass, earlier.rank < count → ¬ earlier.Opens lexicon chars

theorem exists_first (lexicon : Lexicon) (chars : List Char) :
    ∃ kind : TokenClass, kind.Opens lexicon chars ∧ lexicon.Shut chars kind.rank := by
  have last : ∃ kind : TokenClass, kind.Opens lexicon chars := ⟨.invalid, trivial⟩
  obtain ⟨kind, opens, least⟩ := WellFounded.has_min (measure TokenClass.rank).wf
    {kind | kind.Opens lexicon chars} last
  exact ⟨kind, opens, fun earlier before opensEarlier => least earlier opensEarlier before⟩

theorem blankAt?_of_closed (closed : ¬ TokenClass.blank.Opens lexicon (c :: rest)) :
    lexicon.blankAt? c rest = none := if_neg closed

theorem map_of_closed {opens : Prop} [Decidable opens] {id : Option TokenId} (make : TokenId → Lexeme)
    (closed : ¬ (id.isSome = true ∧ opens)) : (if opens then id.map make else none) = none := by
  split
  · rename_i here
    cases id with
    | none => rfl
    | some id => exact (closed ⟨rfl, here⟩).elim
  · rfl

theorem quotedAt?_of_closed (closed : ¬ TokenClass.quoted.Opens lexicon (c :: rest)) :
    lexicon.quotedAt? c rest = none :=
  map_of_closed _ fun ⟨known, same⟩ => closed ⟨known, congrArg some same⟩

theorem literalAt?_of_closed (closed : ¬ TokenClass.literal.Opens lexicon (c :: rest)) :
    literalAt? lexicon.spellings c rest = none := by
  by_contra found
  obtain ⟨lexeme, found⟩ := Option.ne_none_iff_exists'.mp found
  exact closed ⟨_, _, (longest_literal found).1⟩

theorem identifierAt?_of_closed (closed : ¬ TokenClass.identifier.Opens lexicon (c :: rest)) :
    lexicon.identifierAt? c rest = none := map_of_closed _ closed

theorem numberAt?_of_closed (closed : ¬ TokenClass.number.Opens lexicon (c :: rest)) :
    lexicon.numberAt? c rest = none := map_of_closed _ closed

namespace Shut

variable {id : TokenId}

theorem lexeme_quoted (shut : lexicon.Shut ('"' :: rest) TokenClass.quoted.rank)
    (known : lexicon.quoted = some id) :
    lexicon.lexeme lexicon.spellings '"' rest = ⟨quotedTail rest, id, .default⟩ := by
  rw [lexeme, blankAt?_of_closed (shut .blank (by decide)), quotedAt?, if_pos rfl, known]
  rfl

theorem lexeme_literal {literal : Lexeme} (shut : lexicon.Shut (c :: rest) TokenClass.literal.rank)
    (found : literalAt? lexicon.spellings c rest = some literal) :
    lexicon.lexeme lexicon.spellings c rest = literal := by
  rw [lexeme, blankAt?_of_closed (shut .blank (by decide)), quotedAt?_of_closed (shut .quoted (by decide)),
    found]
  rfl

/-- Where no blanks, quoted string or literal can begin, one of the other classes is read. -/
theorem lexeme_other {count : Nat} (shut : lexicon.Shut (c :: rest) count)
    (past : TokenClass.literal.rank < count) :
    lexicon.lexeme lexicon.spellings c rest = lexicon.otherAt c rest := by
  rw [lexeme, blankAt?_of_closed (shut .blank (Nat.lt_trans (by decide) past)),
    quotedAt?_of_closed (shut .quoted (Nat.lt_trans (by decide) past)),
    literalAt?_of_closed (shut .literal past)]
  rfl

theorem lexeme_identifier (shut : lexicon.Shut (c :: rest) TokenClass.identifier.rank)
    (known : lexicon.identifier = some id) (word : isWordStart c = true) :
    lexicon.lexeme lexicon.spellings c rest = ⟨run isWord rest, id, .default⟩ := by
  rw [shut.lexeme_other (by decide), otherAt, identifierAt?, if_pos word, known]
  rfl

theorem lexeme_number (shut : lexicon.Shut (c :: rest) TokenClass.number.rank)
    (known : lexicon.number = some id) (digit : c.isDigit = true) :
    lexicon.lexeme lexicon.spellings c rest = ⟨numberTail rest, id, .default⟩ := by
  rw [shut.lexeme_other (by decide), otherAt, identifierAt?_of_closed (shut .identifier (by decide)),
    numberAt?, if_pos digit, known]
  rfl

theorem lexeme_invalid (shut : lexicon.Shut (c :: rest) TokenClass.invalid.rank) :
    lexicon.lexeme lexicon.spellings c rest = invalidAt c rest := by
  rw [shut.lexeme_other (by decide), otherAt, identifierAt?_of_closed (shut .identifier (by decide)),
    numberAt?_of_closed (shut .number (by decide))]
  rfl

end Shut

/-- What is read at a place is of the first class that has a token there. -/
theorem lexeme_reads (lexicon : Lexicon) (c : Char) (rest : List Char) (start : Nat) :
    let lexeme := lexicon.lexeme lexicon.spellings c rest
    ∃ kind, lexicon.Reads kind
      ⟨lexeme.id, String.ofList (c :: rest.take lexeme.more), start, lexeme.channel⟩
      (rest.drop lexeme.more) := by
  intro lexeme
  obtain ⟨kind, opens, shut⟩ := lexicon.exists_first (c :: rest)
  have whole : (String.ofList (c :: rest.take lexeme.more)).toList ++ rest.drop lexeme.more = c :: rest := by
    simp
  suffices takes : kind.Takes lexicon
      ⟨lexeme.id, String.ofList (c :: rest.take lexeme.more), start, lexeme.channel⟩
      (rest.drop lexeme.more) ∧ lexeme.channel = if kind = .blank then .hidden else .default from
    ⟨kind, whole ▸ opens, whole ▸ shut, takes.1, takes.2⟩
  cases kind with
  | blank =>
    have blank : isBlank c = true := opens
    have found : lexeme = _ := lexicon.lexeme_of_isBlank blank rest
    rw [found]
    exact ⟨⟨rfl, maximalRun_ofList blank rest⟩, rfl⟩
  | quoted =>
    obtain ⟨known, same⟩ := opens
    obtain ⟨id, known⟩ := Option.isSome_iff_exists.mp known
    cases same
    have found : lexeme = _ := shut.lexeme_quoted known
    rw [found]
    refine ⟨⟨known, rest.take (quotedTail rest), by simp, ?_⟩, rfl⟩
    rw [List.take_append_drop, List.length_take, Nat.min_eq_left (quotedTail_le_length rest)]
    exact quotedExtent_quotedTail rest
  | literal =>
    obtain ⟨text, id, stands⟩ := opens
    obtain ⟨listed, standsAt⟩ := standsAt_of_stands stands
    obtain ⟨literal, known, _⟩ := literalAt?_of_standsAt listed standsAt
    obtain ⟨_, _, channel, _⟩ := literalAt?_eq_some known
    have found : lexeme = literal := shut.lexeme_literal known
    rw [found] at whole ⊢
    refine ⟨?_, channel⟩
    simp only [TokenClass.Takes, whole]
    exact longest_literal known
  | identifier =>
    obtain ⟨known, word⟩ := opens
    obtain ⟨id, known⟩ := Option.isSome_iff_exists.mp known
    have found : lexeme = _ := shut.lexeme_identifier known word
    rw [found]
    exact ⟨⟨known, maximalRun_ofList (isWord_of_isWordStart word) rest⟩, rfl⟩
  | number =>
    obtain ⟨known, digit⟩ := opens
    obtain ⟨id, known⟩ := Option.isSome_iff_exists.mp known
    have found : lexeme = _ := shut.lexeme_number known digit
    rw [found]
    refine ⟨⟨known, ?_⟩, rfl⟩
    rw [String.toList_ofList]
    exact decimal_numberTail digit rest
  | invalid =>
    have found : lexeme = _ := shut.lexeme_invalid
    rw [found, invalidAt]
    refine ⟨⟨rfl, ?_⟩, rfl⟩
    rw [String.toList_ofList, List.head?_cons, Option.any_some]
    split
    · rename_i word
      exact (maximalRun_run isWord rest).cons word
    · simp

end Classes

section Words

variable {last next : Char}

/-- No token but a number ends between two characters of a word. -/
theorem Reads.ends_word (reads : lexicon.Reads kind token behind)
    (ends : token.text.toList.getLast? = some last) (goes : behind.head? = some next)
    (word : isWord last = true) (more : isWord next = true) : kind = .number := by
  have takes := reads.takes
  cases kind with
  | blank =>
    have blank := takes.2.belong last (List.mem_of_getLast? ends)
    rw [isWord_of_isBlank blank] at word
    cases word
  | quoted =>
    obtain ⟨_, body, spelled, extent⟩ := takes
    rcases extent.closed_or_whole with whole | closed
    · rw [List.length_append] at whole
      rw [List.length_eq_zero_iff.mp (by omega : behind.length = 0)] at goes
      cases goes
    · rw [List.take_left] at closed
      rw [spelled, List.getLast?_cons, closed] at ends
      cases ends
      exact absurd word (by decide)
  | literal =>
    refine absurd ⟨?_, ?_⟩ takes.1.alone
    · rw [ends, Option.any_some, word]
    · rw [List.drop_left, goes, Option.any_some, more]
  | identifier =>
    rw [MaximalRun.not_more takes.2 goes] at more
    cases more
  | number => rfl
  | invalid =>
    obtain ⟨_, takes⟩ := takes
    split at takes
    · rw [takes.not_more goes] at more
      cases more
    · rename_i other
      rw [String.length_toList.symm, List.length_eq_one_iff] at takes
      obtain ⟨c, single⟩ := takes
      rw [single] at ends other
      cases ends
      exact absurd word other

end Words

theorem reads_of_mem {start : Nat} {chars : List Char}
    (listed : token ∈ lexicon.tokensFrom lexicon.spellings start chars) :
    ∃ left right, chars = left ++ token.text.toList ++ right ∧ token.start = start + byteLength left ∧
      ∃ kind, lexicon.Reads kind token right := by
  induction start, chars using tokensFrom.induct lexicon lexicon.spellings with
  | case1 start =>
    rw [tokensFrom] at listed
    cases listed
  | case2 start c rest lexeme text ih =>
    rw [tokensFrom_cons] at listed
    rcases List.mem_cons.mp listed with rfl | listed
    · exact ⟨[], rest.drop lexeme.more, by simp [lexeme], rfl, lexicon.lexeme_reads c rest start⟩
    · obtain ⟨left, right, behind, place, reads⟩ := ih listed
      refine ⟨text.toList ++ left, right, ?_, ?_, reads⟩
      · rw [List.append_assoc, List.append_assoc, ← List.append_assoc left, ← behind]
        simp [text]
      · rw [place, byteLength_append, byteLength_toList, Nat.add_assoc]

/-- A lexer cuts a text into tokens of which each is the longest one of the first class that can begin where it
stands, and no token but a number ends between two characters of a word. -/
theorem lexer_munches (lexicon : Lexicon) (text : String) :
    ∃ stream tokens, lexicon.lexer text = .ok stream ∧
      (∀ n, stream.answer n = .ok (tokens[n]?.getD (.eof text.utf8ByteSize))) ∧
      Token.Partition text tokens ∧
      ∀ token ∈ tokens, ∃ left right, text = left ++ token.text ++ right ∧
        token.start = left.utf8ByteSize ∧ ∃ kind, lexicon.Reads kind token right.toList ∧
          ∀ last next, token.text.toList.getLast? = some last → right.toList.head? = some next →
            isWord last = true → isWord next = true → kind = .number := by
  refine ⟨lexicon.stream text, lexicon.tokens text, rfl, fun n => ?_, (lexicon.tokens_tile text).partition,
    fun token listed => ?_⟩
  · simp only [stream, Stream.ofList, List.getElem?_toArray, List.getElem?_map]
    cases (lexicon.tokens text)[n]? <;> rfl
  · obtain ⟨left, right, whole, place, kind, reads⟩ := reads_of_mem listed
    refine ⟨String.ofList left, String.ofList right, ?_, ?_, kind, ?_, ?_⟩
    · apply String.toList_injective
      rw [whole]
      simp
    · rw [place, utf8ByteSize_ofList, Nat.zero_add]
    · rwa [String.toList_ofList]
    · rw [String.toList_ofList]
      exact fun last next => reads.ends_word

end Lexicon

namespace Sample

/-- Words, numbers and quoted strings, and literals of which one is the front of another. -/
def wordLexicon : Lexicon where
  vocabulary := vocabulary [.literal "for" ⟨1⟩, .literal "forme" ⟨2⟩, .literal "=" ⟨3⟩, .literal "==" ⟨4⟩,
    .name "NAME" ⟨5⟩, .name "NUMBER" ⟨6⟩, .name "QUOTED" ⟨7⟩]
  identifier := some ⟨5⟩
  number := some ⟨6⟩
  quoted := some ⟨7⟩

end Sample

/-- The name is no keyword, although one stands in front of it, and the number ends within a word. -/
theorem Lexicon.lexer_munches_words :
    let number : Token := ⟨⟨6⟩, "1.5", 8, .default⟩
    Sample.wordLexicon.tokens "format==1.5x" = [⟨⟨5⟩, "format", 0, .default⟩, ⟨⟨4⟩, "==", 6, .default⟩, number,
      ⟨⟨5⟩, "x", 11, .default⟩] ∧ Sample.wordLexicon.Reads .number number ['x'] := by
  intro number
  have found : Sample.wordLexicon.tokens "format==1.5x" = [⟨⟨5⟩, "format", 0, .default⟩,
      ⟨⟨4⟩, "==", 6, .default⟩, number, ⟨⟨5⟩, "x", 11, .default⟩] := by
    decide +kernel
  obtain ⟨stream, tokens, run, answers, _, munched⟩ :=
    Lexicon.lexer_munches Sample.wordLexicon "format==1.5x"
  have listed : number ∈ tokens := by
    have answered : (Sample.wordLexicon.stream "format==1.5x").answer 2 = .ok number := by
      decide +kernel
    rw [Except.ok.inj run, answers] at answered
    cases third : tokens[2]? with
    | none =>
      rw [third] at answered
      exact absurd (Except.ok.inj answered) (by decide)
    | some token =>
      rw [third] at answered
      rw [← Except.ok.inj answered]
      exact List.mem_of_getElem? third
  obtain ⟨left, right, whole, start, kind, reads, ends⟩ := munched number listed
  have behind : right.toList = ['x'] := by
    have split := congrArg String.toList whole
    rw [String.toList_append, String.toList_append, List.append_assoc,
      show "format==1.5x".toList = "format==".toList ++ ("1.5".toList ++ ['x']) by decide] at split
    have rest := (append_inj_of_byteLength split
      (by rw [byteLength_toList, byteLength_toList, ← start]; rfl)).2
    exact (List.append_cancel_left rest).symm
  rw [behind] at reads ends
  have word := ends '5' 'x' (by decide) rfl (by decide) (by decide)
  exact ⟨found, word ▸ reads⟩

end Typeahead
