import Typeahead.Lexer.Lexicon
import Typeahead.Proofs.Text.Classes

/-!
How the token at the front of a text depends on the text behind it. It stays the same when the text goes
on, unless it then goes on itself or a word is no longer at its end.
-/

namespace Typeahead

namespace Lexicon

open Text

variable {lexicon : Lexicon} {spellings : List (List Char × TokenId)} {chars rest ahead : List Char}
  {c : Char}

section Classes

theorem longest_eq_none {spellings : List (List Char × TokenId)} (none : longest spellings = none) :
    spellings = [] := by
  cases spellings with
  | nil => rfl
  | cons first others =>
    rw [longest] at none
    split at none
    · split at none <;> cases none
    · cases none

theorem longest_eq_some {spelling : List Char × TokenId} (found : longest spellings = some spelling) :
    spelling ∈ spellings ∧ ∀ other ∈ spellings, other.1.length ≤ spelling.1.length := by
  induction spellings generalizing spelling with
  | nil => cases found
  | cons first others ih =>
    rw [longest] at found
    split at found
    · rename_i best another
      obtain ⟨among, bound⟩ := ih another
      split at found
      · rename_i shorter
        cases found
        refine ⟨List.mem_cons_of_mem _ among, fun other listed => ?_⟩
        rcases List.mem_cons.mp listed with rfl | listed
        · exact Nat.le_of_lt shorter
        · exact bound other listed
      · rename_i longer
        cases found
        refine ⟨List.mem_cons_self, fun other listed => ?_⟩
        rcases List.mem_cons.mp listed with rfl | listed
        · exact Nat.le_refl _
        · exact Nat.le_trans (bound other listed) (Nat.le_of_not_lt longer)
    · rename_i none
      cases found
      rw [longest_eq_none none]
      exact ⟨List.mem_cons_self, fun other listed => by rw [List.mem_singleton.mp listed]⟩

theorem standsAt_iff {spelling : List Char} : standsAt chars spelling = true ↔
    spelling ≠ [] ∧ spelling <+: chars ∧
      ¬ (spelling.getLast?.any isWord = true ∧ (chars.drop spelling.length).head?.any isWord = true) := by
  simp only [standsAt, Bool.and_eq_true, bne_iff_ne, List.isPrefixOf_iff_prefix, Bool.not_eq_true',
    Bool.and_eq_false_iff, not_and_or, Bool.not_eq_true, and_assoc]

theorem quotedTail_of_ne (unescaped : c ≠ '\\') (apart : c ≠ '"') (rest : List Char) :
    quotedTail (c :: rest) = 1 + quotedTail rest := by
  rw [quotedTail, if_neg apart]
  · exact fun same => absurd same unescaped
  · exact fun _ _ same => absurd same unescaped

/-- A quoted string that ends within a text does not depend on how the text goes on. -/
theorem quotedTail_append_of_le (within : quotedTail (chars ++ ahead) ≤ chars.length) :
    quotedTail (chars ++ ahead) = quotedTail chars := by
  induction chars using quotedTail.induct with
  | case1 => exact Nat.le_zero.mp within
  | case2 =>
    cases ahead with
    | nil => rfl
    | cons c ahead =>
      simp only [List.cons_append, List.nil_append, quotedTail, List.length_singleton] at within
      omega
  | case3 c rest ih =>
    simp only [List.cons_append, quotedTail, List.length_cons] at within ⊢
    rw [ih (by omega)]
  | case4 rest _ _ => simp [quotedTail]
  | case5 c rest plain escape apart ih =>
    have unescaped : c ≠ '\\' := by
      rintro rfl
      cases rest with
      | nil => exact plain rfl rfl
      | cons d rest => exact escape d rest rfl rfl
    rw [List.cons_append, quotedTail_of_ne unescaped apart, List.length_cons] at within
    rw [List.cons_append, quotedTail_of_ne unescaped apart, quotedTail_of_ne unescaped apart,
      ih (by omega)]

theorem fraction_of_ne_point (apart : c ≠ '.') (rest : List Char) : fraction (c :: rest) = 0 := by
  rw [fraction]
  rintro _ _ ⟨⟩
  exact apart rfl

theorem fraction_append_of_le (within : fraction (chars ++ ahead) ≤ chars.length) :
    fraction (chars ++ ahead) = fraction chars := by
  cases chars with
  | nil => exact Nat.le_zero.mp within
  | cons point chars =>
    by_cases apart : point = '.'
    · subst apart
      cases chars with
      | nil =>
        cases ahead with
        | nil => rfl
        | cons c ahead =>
          simp only [List.cons_append, List.nil_append, fraction, List.length_singleton] at within ⊢
          split at within
          · omega
          · rename_i other
            rw [if_neg other]
      | cons c chars =>
        simp only [List.cons_append, fraction, List.length_cons] at within ⊢
        split at within
        · rename_i digit
          rw [if_pos digit, if_pos digit, run_append_of_le (by omega)]
        · rename_i other
          rw [if_neg other, if_neg other]
    · rw [List.cons_append, fraction_of_ne_point apart, fraction_of_ne_point apart]

theorem numberTail_append_of_le (within : numberTail (chars ++ ahead) ≤ chars.length) :
    numberTail (chars ++ ahead) = numberTail chars := by
  have digits : run Char.isDigit (chars ++ ahead) = run Char.isDigit chars := by
    refine run_append_of_le ?_
    rw [numberTail] at within
    omega
  have inside := run_le_length Char.isDigit chars
  rw [numberTail, digits, List.drop_append_of_le_length inside] at within ⊢
  rw [fraction_append_of_le (by rw [List.length_drop]; omega), numberTail]

end Classes

/-- The text is a spelling with the end of a word at its end, and a word goes on behind it. -/
def RunsOn (spellings : List (List Char × TokenId)) (chars ahead : List Char) : Prop :=
  (∃ id, (chars, id) ∈ spellings) ∧ chars.getLast?.any isWord = true ∧ ahead.head?.any isWord = true

theorem standsAt_append {spelling : List Char} (short : spelling.length ≤ chars.length)
    (ends : spelling = chars → spelling.getLast?.any isWord = true → ahead.head?.any isWord = false) :
    standsAt (chars ++ ahead) spelling = standsAt chars spelling := by
  have prefixes : spelling <+: chars ++ ahead ↔ spelling <+: chars :=
    ⟨fun given => List.prefix_of_prefix_length_le given (List.prefix_append chars ahead) short,
      fun given => given.trans (List.prefix_append chars ahead)⟩
  rw [Bool.eq_iff_iff, standsAt_iff, standsAt_iff, prefixes]
  refine and_congr_right fun _ => and_congr_right fun front => not_congr (and_congr_right fun word => ?_)
  obtain ⟨rest, rfl⟩ := front
  rw [List.append_assoc, List.drop_left, List.drop_left]
  cases rest with
  | nil =>
    rw [List.nil_append, ends (List.append_nil _).symm word]
    rfl
  | cons c rest => rfl

theorem standsAt_length {spelling : List Char} (stands : standsAt chars spelling = true) :
    spelling.length ≤ chars.length := (standsAt_iff.mp stands).2.1.length_le

/-- Where a spelling stands there is a literal, which is no shorter. -/
theorem literalAt?_of_standsAt {spelling : List Char × TokenId} (listed : spelling ∈ spellings)
    (stands : standsAt (c :: rest) spelling.1 = true) :
    ∃ lexeme, literalAt? spellings c rest = some lexeme ∧ spelling.1.length ≤ lexeme.more + 1 := by
  have candidate : spelling ∈ spellings.filter fun spelling => standsAt (c :: rest) spelling.1 :=
    List.mem_filter.mpr ⟨listed, stands⟩
  cases best : longest (spellings.filter fun spelling => standsAt (c :: rest) spelling.1) with
  | none =>
    rw [longest_eq_none best] at candidate
    cases candidate
  | some longer =>
    have bound := (longest_eq_some best).2 spelling candidate
    refine ⟨_, by rw [literalAt?, best, Option.map_some], ?_⟩
    dsimp only
    omega

theorem literalAt?_append
    (short : ∀ spelling ∈ spellings, standsAt (c :: rest ++ ahead) spelling.1 = true →
      spelling.1.length ≤ (c :: rest).length)
    (stays : ¬ RunsOn spellings (c :: rest) ahead) :
    literalAt? spellings c (rest ++ ahead) = literalAt? spellings c rest := by
  have same : spellings.filter (fun spelling => standsAt (c :: (rest ++ ahead)) spelling.1) =
      spellings.filter fun spelling => standsAt (c :: rest) spelling.1 := by
    refine List.filter_congr fun spelling listed => ?_
    by_cases fits : spelling.1.length ≤ (c :: rest).length
    · refine standsAt_append fits fun whole word => ?_
      rw [← Bool.not_eq_true]
      exact fun goes => stays ⟨⟨spelling.2, whole ▸ listed⟩, whole ▸ word, goes⟩
    · rw [Bool.eq_iff_iff]
      exact ⟨fun stands => absurd (short spelling listed stands) fits,
        fun stands => absurd (standsAt_length stands) fits⟩
  rw [literalAt?, literalAt?, same]

/-- A token that is neither blank nor quoted nor a literal. -/
def otherAt (lexicon : Lexicon) (c : Char) (rest : List Char) : Lexeme :=
  (lexicon.identifierAt? c rest <|> lexicon.numberAt? c rest).getD (invalidAt c rest)

/-- What class of token begins with a character: blanks, a quoted string, or a literal and else one of the
other classes. -/
theorem lexeme_cases (lexicon : Lexicon) (spellings : List (List Char × TokenId)) (c : Char) :
    (isBlank c = true ∧ ∀ rest, lexicon.lexeme spellings c rest =
      ⟨run isBlank rest, lexicon.blankId, .hidden⟩) ∨
    (∃ id, isBlank c = false ∧ c = '"' ∧ lexicon.quoted = some id ∧
      ∀ rest, lexicon.lexeme spellings c rest = ⟨quotedTail rest, id, .default⟩) ∨
    (isBlank c = false ∧ ∀ rest, lexicon.lexeme spellings c rest =
      (literalAt? spellings c rest).getD (lexicon.otherAt c rest)) := by
  cases blank : isBlank c with
  | true => exact .inl ⟨rfl, fun rest => by simp [lexeme, blankAt?, blank]⟩
  | false =>
    right
    have plain : lexicon.quotedAt? c = (fun _ => none) → ∀ rest, lexicon.lexeme spellings c rest =
        (literalAt? spellings c rest).getD (lexicon.otherAt c rest) := by
      intro unquoted rest
      rw [lexeme, unquoted, blankAt?, blank, otherAt]
      cases literalAt? spellings c rest <;> simp
    by_cases quote : c = '"'
    · cases quoted : lexicon.quoted with
      | none => exact .inr ⟨rfl, plain (by funext rest; simp [quotedAt?, quoted])⟩
      | some id =>
        refine .inl ⟨id, rfl, quote, rfl, fun rest => ?_⟩
        subst quote
        simp [lexeme, blankAt?, blank, quotedAt?, quoted]
    · exact .inr ⟨rfl, plain (by funext rest; simp [quotedAt?, quote])⟩

theorem otherAt_cases (lexicon : Lexicon) (c : Char) :
    (∃ id, isWordStart c = true ∧ lexicon.identifier = some id ∧
      ∀ rest, lexicon.otherAt c rest = ⟨run isWord rest, id, .default⟩) ∨
    (∃ id, c.isDigit = true ∧ lexicon.number = some id ∧
      ∀ rest, lexicon.otherAt c rest = ⟨numberTail rest, id, .default⟩) ∨
    ∀ rest, lexicon.otherAt c rest =
      ⟨if isWord c then run isWord rest else 0, .invalid, .default⟩ := by
  have number : lexicon.identifierAt? c = (fun _ => none) →
      (∃ id, c.isDigit = true ∧ lexicon.number = some id ∧
        ∀ rest, lexicon.otherAt c rest = ⟨numberTail rest, id, .default⟩) ∨
      ∀ rest, lexicon.otherAt c rest =
        ⟨if isWord c then run isWord rest else 0, .invalid, .default⟩ := by
    intro unnamed
    cases digit : c.isDigit with
    | false => exact .inr fun rest => by simp [otherAt, unnamed, numberAt?, digit, invalidAt]
    | true =>
      cases numbered : lexicon.number with
      | none => exact .inr fun rest => by simp [otherAt, unnamed, numberAt?, numbered, invalidAt]
      | some id =>
        exact .inl ⟨id, rfl, rfl, fun rest => by
          simp [otherAt, unnamed, numberAt?, digit, numbered]⟩
  cases word : isWordStart c with
  | false => exact .inr (number (by funext rest; simp [identifierAt?, word]))
  | true =>
    cases named : lexicon.identifier with
    | none => exact .inr (number (by funext rest; simp [identifierAt?, named]))
    | some id =>
      exact .inl ⟨id, rfl, rfl, fun rest => by simp [otherAt, identifierAt?, word, named]⟩

theorem otherAt_append_of_le (within : (lexicon.otherAt c (rest ++ ahead)).more ≤ rest.length) :
    lexicon.otherAt c (rest ++ ahead) = lexicon.otherAt c rest := by
  rcases lexicon.otherAt_cases c with ⟨id, _, _, found⟩ | ⟨id, _, _, found⟩ | found
  · rw [found] at within
    rw [found, found, run_append_of_le within]
  · rw [found] at within
    rw [found, found, numberTail_append_of_le within]
  · rw [found] at within
    rw [found, found]
    split at within
    · rename_i word
      rw [if_pos word, if_pos word, run_append_of_le within]
    · rename_i other
      rw [if_neg other, if_neg other]

/-- A token that ends within a text does not depend on how the text goes on, unless that takes away the
end of a word from a spelling. -/
theorem lexeme_append_of_le (within : (lexicon.lexeme spellings c (rest ++ ahead)).more ≤ rest.length)
    (stays : ¬ RunsOn spellings (c :: rest) ahead) :
    lexicon.lexeme spellings c (rest ++ ahead) = lexicon.lexeme spellings c rest := by
  rcases lexicon.lexeme_cases spellings c with ⟨_, found⟩ | ⟨id, _, _, _, found⟩ | ⟨_, found⟩
  · rw [found] at within
    rw [found, found, run_append_of_le within]
  · rw [found] at within
    rw [found, found, quotedTail_append_of_le within]
  · rw [found] at within
    have literals : literalAt? spellings c (rest ++ ahead) = literalAt? spellings c rest := by
      refine literalAt?_append (fun spelling listed stands => ?_) stays
      rw [List.cons_append] at stands
      obtain ⟨lexeme, literal, bound⟩ := literalAt?_of_standsAt listed stands
      rw [literal, Option.getD_some] at within
      rw [List.length_cons]
      omega
    rw [found, found, literals]
    rw [literals] at within
    cases literal : literalAt? spellings c rest with
    | some lexeme => rfl
    | none =>
      rw [literal, Option.getD_none] at within
      rw [Option.getD_none, Option.getD_none, otherAt_append_of_le within]

section Ends

variable {last next : Char}

theorem quotedTail_ends (chars : List Char) :
    chars.drop (quotedTail chars) = [] ∨ (chars.take (quotedTail chars)).getLast? = some '"' := by
  induction chars using quotedTail.induct with
  | case1 => exact .inl rfl
  | case2 => exact .inl rfl
  | case3 c rest ih =>
    rw [quotedTail, Nat.add_comm]
    rcases ih with ended | closed
    · exact .inl ended
    · right
      rw [List.take_succ_cons, List.take_succ_cons, List.getLast?_cons, List.getLast?_cons, closed]
      rfl
  | case4 rest _ _ => exact .inr (by simp [quotedTail])
  | case5 c rest plain escape apart ih =>
    rw [quotedTail, if_neg apart, Nat.add_comm]
    · rcases ih with ended | closed
      · exact .inl ended
      · right
        rw [List.take_succ_cons, List.getLast?_cons, closed]
        rfl
    · exact plain
    · exact escape

theorem isDigit_of_getLast?_run (digit : c.isDigit = true)
    (ends : (c :: rest.take (run Char.isDigit rest)).getLast? = some last) : last.isDigit = true := by
  rcases List.mem_cons.mp (List.mem_of_getLast? ends) with rfl | listed
  · exact digit
  · exact mem_take_run listed

theorem numberTail_ends (digit : c.isDigit = true)
    (ends : (c :: rest.take (numberTail rest)).getLast? = some last) : last.isDigit = true := by
  rw [numberTail, List.take_add, ← List.cons_append] at ends
  cases behind : rest.drop (run Char.isDigit rest) with
  | nil =>
    rw [behind, List.take_nil, List.append_nil] at ends
    exact isDigit_of_getLast?_run digit ends
  | cons point others =>
    rw [behind] at ends
    have none : fraction (point :: others) = 0 → last.isDigit = true := by
      intro zero
      rw [zero, List.take_zero, List.append_nil] at ends
      exact isDigit_of_getLast?_run digit ends
    by_cases apart : point = '.'
    · subst apart
      cases others with
      | nil => exact none rfl
      | cons d others =>
        by_cases fractional : d.isDigit = true
        · rw [fraction, if_pos fractional, Nat.add_comm, List.take_succ_cons, List.take_succ_cons,
            List.getLast?_append, List.getLast?_cons_cons, List.getLast?_cons, Option.some_or,
            ← List.getLast?_cons] at ends
          exact isDigit_of_getLast?_run fractional ends
        · exact none (by rw [fraction, if_neg fractional])
    · exact none (fraction_of_ne_point apart _)

/-- No token but a number ends between two characters of a word. -/
theorem ends_in_digit (ends : (c :: rest.take (lexicon.lexeme spellings c rest).more).getLast? = some last)
    (goes : (rest.drop (lexicon.lexeme spellings c rest).more).head? = some next)
    (word : isWord last = true) (more : isWord next = true) :
    lexicon.number.isSome = true ∧ last.isDigit = true := by
  rcases lexicon.lexeme_cases spellings c with ⟨blank, found⟩ | ⟨id, _, rfl, _, found⟩ | ⟨_, found⟩
  · rw [found] at ends
    have blanks : isBlank last = true := by
      rcases List.mem_cons.mp (List.mem_of_getLast? ends) with rfl | listed
      · exact blank
      · exact mem_take_run listed
    rw [isWord_of_isBlank blanks] at word
    cases word
  · rw [found] at ends goes
    rcases quotedTail_ends rest with ended | closed
    · rw [ended] at goes
      cases goes
    · rw [List.getLast?_cons, closed] at ends
      cases ends
      exact absurd word (by decide)
  · rw [found] at ends goes
    cases literal : literalAt? spellings c rest with
    | some lexeme =>
      rw [literal, Option.getD_some] at ends goes
      obtain ⟨spelling, best, rfl⟩ := Option.map_eq_some_iff.mp literal
      obtain ⟨_, stands⟩ := List.mem_filter.mp (longest_eq_some best).1
      obtain ⟨nonempty, ⟨behind, whole⟩, alone⟩ := standsAt_iff.mp stands
      cases chars : spelling.1 with
      | nil => exact absurd chars nonempty
      | cons d front =>
        rw [chars, List.cons_append] at whole
        rw [chars] at alone
        obtain ⟨rfl, rfl⟩ := List.cons.inj whole
        simp only [chars, List.length_cons, Nat.add_sub_cancel] at ends goes
        rw [List.take_left] at ends
        rw [List.drop_left] at goes
        refine absurd ⟨by rw [ends, Option.any_some, word], ?_⟩ alone
        rw [List.length_cons, List.drop_succ_cons, List.drop_left, goes, Option.any_some, more]
    | none =>
      rw [literal, Option.getD_none] at ends goes
      rcases lexicon.otherAt_cases c with ⟨id, _, _, found⟩ | ⟨id, digit, numbered, found⟩ | found
      · rw [found] at goes
        have stopped := head?_drop_run isWord rest
        rw [goes, Option.any_some, more] at stopped
        cases stopped
      · rw [found] at ends
        exact ⟨by rw [numbered]; rfl, numberTail_ends digit ends⟩
      · rw [found] at ends goes
        by_cases inside : isWord c = true
        · rw [if_pos inside] at goes
          have stopped := head?_drop_run isWord rest
          rw [goes, Option.any_some, more] at stopped
          cases stopped
        · rw [if_neg inside] at ends
          cases ends
          exact absurd word inside

end Ends

end Lexicon

end Typeahead
