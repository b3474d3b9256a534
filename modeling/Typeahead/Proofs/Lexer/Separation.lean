import Typeahead.Proofs.Lexer.Lexemes
import Typeahead.Proofs.Lexer.Tiling

/-!
Where two texts stand one behind the other, and a token begins where the second one does, their tokens
are those of the two texts alone. Blanks between them make sure of that.
-/

namespace Typeahead

namespace Lexicon

open Text

variable {lexicon : Lexicon} {spellings : List (List Char × TokenId)} {chars rest ahead : List Char}
  {c : Char}

section Breaks

/-- A token of two texts in a row ends where the first one does. -/
inductive Breaks (lexicon : Lexicon) (spellings : List (List Char × TokenId)) :
    List Char → List Char → Prop where
  | here (ahead : List Char) : Breaks lexicon spellings [] ahead
  | later {c : Char} {rest ahead : List Char}
      (within : (lexicon.lexeme spellings c (rest ++ ahead)).more ≤ rest.length)
      (others : Breaks lexicon spellings
        (rest.drop (lexicon.lexeme spellings c (rest ++ ahead)).more) ahead) :
      Breaks lexicon spellings (c :: rest) ahead

theorem breaks_of_start {start : Nat} {token : Token}
    (listed : token ∈ lexicon.tokensFrom spellings start (chars ++ ahead))
    (place : token.start = start + byteLength chars) : Breaks lexicon spellings chars ahead := by
  induction size : chars.length using Nat.strong_induction_on generalizing chars start with
  | _ _ ih =>
    subst size
    cases chars with
    | nil => exact .here ahead
    | cons c rest =>
      have wide := c.utf8Size_pos
      rw [byteLength] at place
      rw [List.cons_append, tokensFrom_cons] at listed
      rcases List.mem_cons.mp listed with rfl | listed
      · simp only at place
        omega
      · simp only [utf8ByteSize_ofList, byteLength] at listed
        have tile := lexicon.tokensFrom_tile spellings
          (start + (c.utf8Size + byteLength ((rest ++ ahead).take
            (lexicon.lexeme spellings c (rest ++ ahead)).more)))
          ((rest ++ ahead).drop (lexicon.lexeme spellings c (rest ++ ahead)).more)
        obtain ⟨left, right, behind, there⟩ := tile.piece listed
        have nonempty := List.length_pos_iff.mpr (mt String.toList_eq_nil_iff.mp (tile.text_ne listed))
        -- The first token and what lies between it and the one that begins behind the first text.
        have whole : rest ++ ahead = ((rest ++ ahead).take
            (lexicon.lexeme spellings c (rest ++ ahead)).more ++ left) ++ (token.text.toList ++ right) := by
          rw [List.append_assoc, ← List.append_assoc left, ← behind, List.take_append_drop]
        obtain ⟨parts, next⟩ := append_inj_of_byteLength whole (by rw [byteLength_append]; omega)
        have lengths := congrArg List.length parts
        have more := congrArg List.length next
        simp only [List.length_append, List.length_take] at lengths more
        have within : (lexicon.lexeme spellings c (rest ++ ahead)).more ≤ rest.length := by omega
        refine .later within ?_
        rw [List.drop_append_of_le_length within] at listed
        rw [List.take_append_of_le_length within] at listed there parts
        refine ih _ ?_ listed ?_ rfl
        · rw [List.length_drop, List.length_cons]
          omega
        · have split := congrArg byteLength
            (List.take_append_drop (lexicon.lexeme spellings c (rest ++ ahead)).more rest)
          rw [byteLength_append] at split
          omega

theorem Breaks.ends_in_digit (breaks : Breaks lexicon spellings chars ahead) {last next : Char}
    (ends : chars.getLast? = some last) (goes : ahead.head? = some next) (word : isWord last = true)
    (more : isWord next = true) : lexicon.number.isSome = true ∧ last.isDigit = true := by
  induction breaks with
  | here => cases ends
  | @later c rest ahead within others ih =>
    cases left : rest.drop (lexicon.lexeme spellings c (rest ++ ahead)).more with
    | nil =>
      have whole := Nat.le_antisymm within (List.drop_eq_nil_iff.mp left)
      have lastOf : (c :: (rest ++ ahead).take
          (lexicon.lexeme spellings c (rest ++ ahead)).more).getLast? = some last := by
        rw [whole, List.take_left, ends]
      exact Lexicon.ends_in_digit lastOf (by rw [whole, List.drop_left, goes]) word more
    | cons d behind =>
      rw [left] at ih
      refine ih ?_ goes
      rw [← ends, ← List.take_append_drop (lexicon.lexeme spellings c (rest ++ ahead)).more rest, left,
        ← List.cons_append, List.getLast?_append, List.getLast?_cons, Option.some_or]

/-- No spelling ends in a digit, if there are numbers that could begin with it. -/
def Firm (lexicon : Lexicon) (spellings : List (List Char × TokenId)) : Prop :=
  lexicon.number = none ∨
    ∀ spelling ∈ spellings, spelling.1.getLast?.any Char.isDigit = false

theorem Breaks.stays (breaks : Breaks lexicon spellings chars ahead)
    (firm : lexicon.Firm spellings) : ¬ RunsOn spellings chars ahead := by
  rintro ⟨⟨id, listed⟩, word, more⟩
  obtain ⟨last, ends, word⟩ := (Option.any_eq_true _ _).mp word
  obtain ⟨next, goes, more⟩ := (Option.any_eq_true _ _).mp more
  obtain ⟨numbered, digit⟩ := breaks.ends_in_digit ends goes word more
  rcases firm with none | firm
  · rw [none] at numbered
    cases numbered
  · have other := firm _ listed
    rw [ends, Option.any_some, digit] at other
    cases other

/-- The first token of two texts in a row, and the tokens behind it, where it ends in the first text. -/
theorem tokensFrom_of_within (within : (lexicon.lexeme spellings c (rest ++ ahead)).more ≤ rest.length)
    (start : Nat) : lexicon.tokensFrom spellings start (c :: rest ++ ahead) =
      let lexeme := lexicon.lexeme spellings c (rest ++ ahead)
      let text := String.ofList (c :: rest.take lexeme.more)
      ⟨lexeme.id, text, start, lexeme.channel⟩ ::
        lexicon.tokensFrom spellings (start + text.utf8ByteSize) (rest.drop lexeme.more ++ ahead) := by
  rw [List.cons_append, tokensFrom_cons]
  simp only [List.take_append_of_le_length within, List.drop_append_of_le_length within]

theorem byteLength_of_within (start more : Nat) (c : Char) (rest : List Char) :
    start + (String.ofList (c :: rest.take more)).utf8ByteSize + byteLength (rest.drop more) =
      start + byteLength (c :: rest) := by
  rw [utf8ByteSize_ofList, Nat.add_assoc, ← byteLength_append, List.cons_append, List.take_append_drop]

theorem Breaks.tokensFrom_append (breaks : Breaks lexicon spellings chars ahead)
    (firm : lexicon.Firm spellings) (start : Nat) :
    lexicon.tokensFrom spellings start (chars ++ ahead) =
      lexicon.tokensFrom spellings start chars ++
        lexicon.tokensFrom spellings (start + byteLength chars) ahead := by
  induction breaks generalizing start with
  | here ahead => rw [List.nil_append, tokensFrom, List.nil_append, byteLength, Nat.add_zero]
  | @later c rest ahead within others ih =>
    have same := lexeme_append_of_le within ((Breaks.later within others).stays firm)
    rw [tokensFrom_of_within within, tokensFrom_cons]
    rw [same] at ih ⊢
    simp only [ih, byteLength_of_within, List.cons_append]

end Breaks

section Literals

theorem longest_find? {spelling : List Char × TokenId} (found : longest spellings = some spelling) :
    spellings.find? (fun other => other.1 = spelling.1) = some spelling := by
  induction spellings generalizing spelling with
  | nil => cases found
  | cons first others ih =>
    rw [longest] at found
    split at found
    · rename_i best another
      split at found
      · rename_i shorter
        cases found
        rw [List.find?_cons_of_neg, ih another]
        intro same
        rw [of_decide_eq_true same] at shorter
        exact Nat.lt_irrefl _ shorter
      · cases found
        simp
    · cases found
      simp

theorem find?_spellings (lexicon : Lexicon) (text : String) :
    lexicon.spellings.find? (fun spelling => spelling.1 = text.toList) =
      (lexicon.vocabulary.literalId? text).map fun id => (text.toList, id) := by
  unfold spellings Vocabulary.spellings Vocabulary.literalId?
  induction lexicon.vocabulary.entries with
  | nil => rfl
  | cons entry entries ih =>
    cases entry with
    | name name id =>
      rw [List.filterMap_cons_none rfl, List.findSome?_cons, ih]
      rfl
    | literal other id =>
      have spelled : (Entry.literal other id).spelling? = some (other, id) := rfl
      rw [List.filterMap_cons_some spelled, List.findSome?_cons, List.map_cons, Entry.literalId?]
      by_cases same : other = text
      · subst same
        simp
      · have apart : other.toList ≠ text.toList := mt (fun equal => String.toList_injective equal) same
        rw [if_neg same, List.find?_cons_of_neg (by simpa using apart), ih]

theorem mem_spellings (lexicon : Lexicon) {text : String} {id : TokenId}
    (known : lexicon.vocabulary.literalId? text = some id) : (text.toList, id) ∈ lexicon.spellings :=
  List.mem_of_find?_eq_some ((lexicon.find?_spellings text).trans (by rw [known]; rfl))

/-- A literal is the whole of a spelling, with the id that the vocabulary has for it. -/
theorem literalAt?_eq_some {lexeme : Lexeme}
    (found : literalAt? lexicon.spellings c rest = some lexeme) :
    ∃ text, lexicon.vocabulary.literalId? text = some lexeme.id ∧ lexeme.channel = .default ∧
      text.toList = c :: rest.take lexeme.more ∧
      ∀ spelling ∈ lexicon.spellings, standsAt (c :: rest) spelling.1 = true →
        spelling.1.length ≤ text.toList.length := by
  obtain ⟨spelling, best, rfl⟩ := Option.map_eq_some_iff.mp found
  obtain ⟨among, bound⟩ := longest_eq_some best
  obtain ⟨nonempty, ⟨behind, whole⟩, _⟩ := standsAt_iff.mp (List.mem_filter.mp among).2
  have stands := (List.mem_filter.mp among).2
  have first := longest_find? best
  rw [List.find?_filter] at first
  have text : (String.ofList spelling.1).toList = spelling.1 := by simp
  refine ⟨String.ofList spelling.1, ?_, rfl, ?_, fun other listed stands => ?_⟩
  · have same : lexicon.spellings.find? (fun other => other.1 = spelling.1) = some spelling := by
      rw [← first]
      refine congrArg (fun holds => List.find? holds _) (funext fun other => ?_)
      by_cases same : other.1 = spelling.1
      · simp [same, stands]
      · simp [same]
    have known := lexicon.find?_spellings (String.ofList spelling.1)
    rw [text, same] at known
    obtain ⟨id, known, same⟩ := Option.map_eq_some_iff.mp known.symm
    rw [known, ← same]
  · rw [text]
    cases chars : spelling.1 with
    | nil => exact absurd chars nonempty
    | cons d front =>
      rw [chars, List.cons_append] at whole
      obtain ⟨rfl, rfl⟩ := List.cons.inj whole
      rw [List.length_cons, Nat.add_sub_cancel, List.take_left]
  · rw [text]
    exact bound other (List.mem_filter.mpr ⟨listed, stands⟩)

end Literals

end Lexicon

end Typeahead
