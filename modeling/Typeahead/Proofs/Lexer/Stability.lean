import Typeahead.Proofs.Lexer.Coverage

/-!
Texts that go on in two ways. A token that begins and ends at the same places in both is the same token, and
so are all tokens before it. The exception is a literal that ends in a digit: where a word goes on behind it,
it is no literal, but may still be a number.
-/

namespace Typeahead

open Text

namespace Lexicon

variable {lexicon : Lexicon} {spellings : List (List Char × TokenId)} {start place : Nat}
  {chars rest ahead other : List Char} {c : Char} {old new : Token}

section Lexemes

theorem quotedTail_le_length (chars : List Char) : quotedTail chars ≤ chars.length := by
  induction chars using quotedTail.induct with
  | case1 => exact Nat.le_refl _
  | case2 => exact Nat.le_refl _
  | case3 c rest ih =>
    simp only [quotedTail, List.length_cons]
    omega
  | case4 rest _ _ => simp [quotedTail]
  | case5 c rest plain escape apart ih =>
    rw [quotedTail, if_neg apart, List.length_cons, Nat.add_comm]
    · exact Nat.succ_le_succ ih
    · exact plain
    · exact escape

theorem fraction_le_length (chars : List Char) : fraction chars ≤ chars.length := by
  unfold fraction
  split
  · rename_i c rest
    have digits := run_le_length Char.isDigit rest
    simp only [List.length_cons]
    split <;> omega
  · exact Nat.zero_le _

theorem numberTail_le_length (chars : List Char) : numberTail chars ≤ chars.length := by
  have digits := run_le_length Char.isDigit chars
  have behind := fraction_le_length (chars.drop (run Char.isDigit chars))
  rw [List.length_drop] at behind
  rw [numberTail]
  omega

theorem more_le_length (lexicon : Lexicon) (spellings : List (List Char × TokenId)) (c : Char)
    (rest : List Char) : (lexicon.lexeme spellings c rest).more ≤ rest.length := by
  rcases lexicon.lexeme_cases spellings c with ⟨_, found⟩ | ⟨id, _, _, _, found⟩ | ⟨_, found⟩
  · rw [found]
    exact run_le_length isBlank rest
  · rw [found]
    exact quotedTail_le_length rest
  · rw [found]
    cases literal : literalAt? spellings c rest with
    | some lexeme =>
      obtain ⟨spelling, best, rfl⟩ := Option.map_eq_some_iff.mp literal
      have short := standsAt_length (List.mem_filter.mp (longest_eq_some best).1).2
      rw [List.length_cons] at short
      rw [Option.getD_some]
      dsimp only
      omega
    | none =>
      rw [Option.getD_none]
      rcases lexicon.otherAt_cases c with ⟨id, _, _, found⟩ | ⟨id, _, _, found⟩ | found
      · rw [found]
        exact run_le_length isWord rest
      · rw [found]
        exact numberTail_le_length rest
      · rw [found]
        dsimp only
        split
        · exact run_le_length isWord rest
        · exact Nat.zero_le _

theorem more_eq_length (taken : c :: (rest ++ ahead).take (lexicon.lexeme spellings c (rest ++ ahead)).more =
    c :: rest) : (lexicon.lexeme spellings c (rest ++ ahead)).more = rest.length := by
  have size := congrArg List.length (List.cons.inj taken).2
  rwa [List.length_take_of_le (lexicon.more_le_length spellings c (rest ++ ahead))] at size

/-- Where no spelling reaches the end of a text, it does not matter how the text goes on. -/
theorem literalAt?_congr
    (short : ∀ spelling ∈ spellings, standsAt (c :: (rest ++ ahead)) spelling.1 = true →
      spelling.1.length ≤ rest.length)
    (short' : ∀ spelling ∈ spellings, standsAt (c :: (rest ++ other)) spelling.1 = true →
      spelling.1.length ≤ rest.length) :
    literalAt? spellings c (rest ++ ahead) = literalAt? spellings c (rest ++ other) := by
  have same : spellings.filter (fun spelling => standsAt (c :: (rest ++ ahead)) spelling.1) =
      spellings.filter fun spelling => standsAt (c :: (rest ++ other)) spelling.1 := by
    refine List.filter_congr fun spelling listed => ?_
    by_cases fits : spelling.1.length ≤ rest.length
    · have inside : ∀ behind,
          standsAt (c :: (rest ++ behind)) spelling.1 = standsAt (c :: rest) spelling.1 := by
        intro behind
        rw [← List.cons_append]
        refine standsAt_append (by rw [List.length_cons]; omega) fun whole => ?_
        rw [whole, List.length_cons] at fits
        omega
      rw [inside, inside]
    · rw [Bool.eq_iff_iff]
      exact ⟨fun stands => absurd (short spelling listed stands) fits,
        fun stands => absurd (short' spelling listed stands) fits⟩
  rw [literalAt?, literalAt?, same]

/-- A token that ends before the last character that two texts share is the same in both. -/
theorem lexeme_congr_of_lt (within : (lexicon.lexeme spellings c (rest ++ ahead)).more < rest.length)
    (within' : (lexicon.lexeme spellings c (rest ++ other)).more < rest.length) :
    lexicon.lexeme spellings c (rest ++ ahead) = lexicon.lexeme spellings c (rest ++ other) := by
  rcases lexicon.lexeme_cases spellings c with ⟨_, found⟩ | ⟨id, _, _, _, found⟩ | ⟨_, found⟩
  · rw [found] at within within'
    rw [found, found, run_append_of_le (Nat.le_of_lt within), run_append_of_le (Nat.le_of_lt within')]
  · rw [found] at within within'
    rw [found, found, quotedTail_append_of_le (Nat.le_of_lt within),
      quotedTail_append_of_le (Nat.le_of_lt within')]
  · rw [found] at within within'
    have bounded : ∀ behind,
        ((literalAt? spellings c (rest ++ behind)).getD (lexicon.otherAt c (rest ++ behind))).more <
          rest.length → ∀ spelling ∈ spellings,
            standsAt (c :: (rest ++ behind)) spelling.1 = true → spelling.1.length ≤ rest.length := by
      intro behind within spelling listed stands
      obtain ⟨lexeme, literal, bound⟩ := literalAt?_of_standsAt listed stands
      rw [literal, Option.getD_some] at within
      omega
    have literals := literalAt?_congr (bounded ahead within) (bounded other within')
    rw [found, found, literals]
    rw [literals] at within
    cases literal : literalAt? spellings c (rest ++ other) with
    | some lexeme => rfl
    | none =>
      rw [literal, Option.getD_none] at within within'
      rw [Option.getD_none, Option.getD_none, otherAt_append_of_le (Nat.le_of_lt within),
        otherAt_append_of_le (Nat.le_of_lt within')]

/-- Characters that may be read as a literal or as a number, as it depends on what stands behind them. -/
structure Wavers (lexicon : Lexicon) (spellings : List (List Char × TokenId)) (chars : List Char) : Prop where
  numbers : lexicon.number.isSome = true
  spelled : ∃ id, (chars, id) ∈ spellings
  digit : chars.getLast?.any Char.isDigit = true

/-- A token that ends between two characters of a word could have been a literal only if it ends in a
digit. -/
theorem wavers_of_runsOn (whole : (lexicon.lexeme spellings c (rest ++ ahead)).more = rest.length)
    (runs : RunsOn spellings (c :: rest) ahead) : lexicon.Wavers spellings (c :: rest) := by
  obtain ⟨spelled, word, more⟩ := runs
  obtain ⟨last, ends, word⟩ := (Option.any_eq_true _ _).mp word
  obtain ⟨next, goes, more⟩ := (Option.any_eq_true _ _).mp more
  have lastOf : (c :: (rest ++ ahead).take
      (lexicon.lexeme spellings c (rest ++ ahead)).more).getLast? = some last := by
    rw [whole, List.take_left, ends]
  obtain ⟨numbered, digit⟩ := ends_in_digit lastOf (by rw [whole, List.drop_left, goes]) word more
  exact ⟨numbered, spelled, by rw [ends, Option.any_some, digit]⟩

/-- A token that ends with what two texts share is the same in both, unless it wavers. -/
theorem lexeme_congr_of_eq (whole : (lexicon.lexeme spellings c (rest ++ ahead)).more = rest.length)
    (whole' : (lexicon.lexeme spellings c (rest ++ other)).more = rest.length) :
    lexicon.lexeme spellings c (rest ++ ahead) = lexicon.lexeme spellings c (rest ++ other) ∨
      lexicon.Wavers spellings (c :: rest) := by
  by_cases runs : RunsOn spellings (c :: rest) ahead
  · exact .inr (wavers_of_runsOn whole runs)
  · by_cases runs' : RunsOn spellings (c :: rest) other
    · exact .inr (wavers_of_runsOn whole' runs')
    · left
      rw [lexeme_append_of_le (Nat.le_of_eq whole) runs, lexeme_append_of_le (Nat.le_of_eq whole') runs']

end Lexemes

/-- Tokens that end before a character that two texts share are the same in both. -/
theorem Breaks.tokensFrom_common (breaks : Breaks lexicon spellings chars (c :: (rest ++ ahead)))
    (breaks' : Breaks lexicon spellings chars (c :: (rest ++ other))) (start : Nat) :
    ∃ common,
      lexicon.tokensFrom spellings start (chars ++ c :: (rest ++ ahead)) =
        common ++ lexicon.tokensFrom spellings (start + byteLength chars) (c :: (rest ++ ahead)) ∧
      lexicon.tokensFrom spellings start (chars ++ c :: (rest ++ other)) =
        common ++ lexicon.tokensFrom spellings (start + byteLength chars) (c :: (rest ++ other)) := by
  generalize whole : c :: (rest ++ ahead) = first at breaks ⊢
  induction breaks generalizing start with
  | here => exact ⟨[], by simp [byteLength], by simp [byteLength]⟩
  | @later d front _ within others ih =>
    subst whole
    cases breaks' with
    | later within' others' =>
      -- The character behind what is read so far is shared too: no token ends behind the last such one.
      have same : lexicon.lexeme spellings d (front ++ c :: (rest ++ ahead)) =
          lexicon.lexeme spellings d (front ++ c :: (rest ++ other)) := by
        have split : ∀ behind, front ++ c :: (rest ++ behind) = (front ++ [c]) ++ (rest ++ behind) := by simp
        rw [split] at within within'
        rw [split, split]
        apply lexeme_congr_of_lt <;> rw [List.length_append, List.length_singleton] <;> omega
      rw [tokensFrom_of_within within start, tokensFrom_of_within within' start, same]
      rw [same] at ih
      generalize lexicon.lexeme spellings d (front ++ c :: (rest ++ other)) = lexeme at *
      obtain ⟨common, reads, reads'⟩ :=
        ih others' (start + (String.ofList (d :: front.take lexeme.more)).utf8ByteSize) rfl
      rw [byteLength_of_within] at reads reads'
      refine ⟨⟨lexeme.id, String.ofList (d :: front.take lexeme.more), start, lexeme.channel⟩ :: common,
        ?_, ?_⟩
      · dsimp only
        rw [reads, List.cons_append]
      · dsimp only
        rw [reads', List.cons_append]

/-- The token that begins behind some characters is the first one of the text behind them. -/
theorem tokensFrom_of_start {front : List Token}
    (whole : lexicon.tokensFrom spellings start (chars ++ c :: rest) =
      front ++ lexicon.tokensFrom spellings (start + byteLength chars) (c :: rest))
    (listed : old ∈ lexicon.tokensFrom spellings start (chars ++ c :: rest))
    (place : old.start = start + byteLength chars) :
    old.id = (lexicon.lexeme spellings c rest).id ∧
      old.channel = (lexicon.lexeme spellings c rest).channel ∧
      old.text.toList = c :: rest.take (lexicon.lexeme spellings c rest).more ∧
      ∃ back, lexicon.tokensFrom spellings start (chars ++ c :: rest) = front ++ old :: back := by
  have distinct := (lexicon.tokensFrom_tile spellings start (chars ++ c :: rest)).ascending.nodup_starts
  rw [whole, tokensFrom_cons] at listed distinct ⊢
  have same := List.inj_on_of_nodup_map distinct listed (List.mem_append_right _ List.mem_cons_self) place
  subst same
  exact ⟨rfl, rfl, by simp, _, rfl⟩

/-- If the last of some tokens that are seen stands at the same place when the text behind it is another, then
all of them are seen there as they were. The last one may have changed its kind if it wavers. -/
theorem shown_take_congr
    (seen : (Token.shown (lexicon.tokensFrom spellings start (chars ++ ahead)))[place]? = some old)
    (seen' : (Token.shown (lexicon.tokensFrom spellings start (chars ++ other)))[place]? = some new)
    (begins : new.start = old.start) (ends : new.stop = old.stop)
    (shared : old.stop = start + byteLength chars) :
    (Token.shown (lexicon.tokensFrom spellings start (chars ++ other))).take place =
        (Token.shown (lexicon.tokensFrom spellings start (chars ++ ahead))).take place ∧
      new.text = old.text ∧ (new = old ∨ lexicon.Wavers spellings old.text.toList) := by
  have listed := (Token.shown_sublist _).mem (List.mem_of_getElem? seen)
  have listed' := (Token.shown_sublist _).mem (List.mem_of_getElem? seen')
  have tile := lexicon.tokensFrom_tile spellings start (chars ++ ahead)
  have tile' := lexicon.tokensFrom_tile spellings start (chars ++ other)
  obtain ⟨left, right, whole, here⟩ := tile.piece listed
  obtain ⟨left', right', whole', here'⟩ := tile'.piece listed'
  rw [Token.stop, Token.stop, ← byteLength_toList, ← byteLength_toList] at ends
  rw [Token.stop, ← byteLength_toList] at shared
  have front := (append_inj_of_byteLength whole (by rw [byteLength_append]; omega)).1
  have front' := (append_inj_of_byteLength whole' (by rw [byteLength_append]; omega)).1
  obtain ⟨rfl, text⟩ := append_inj_of_byteLength (front.symm.trans front') (by omega)
  have nonempty := mt String.toList_eq_nil_iff.mp (tile.text_ne listed)
  obtain ⟨c, rest, spelled⟩ := List.exists_cons_of_ne_nil nonempty
  rw [spelled] at front
  have split : ∀ behind, chars ++ behind = left ++ c :: (rest ++ behind) := by simp [front]
  rw [split] at listed listed' seen seen'
  rw [split, split]
  have breaks := breaks_of_start listed here
  have breaks' := breaks_of_start listed' (by omega)
  obtain ⟨common, reads, reads'⟩ := breaks.tokensFrom_common breaks' start
  obtain ⟨id, channel, taken, back, reads⟩ := tokensFrom_of_start reads listed here
  obtain ⟨id', channel', taken', back', reads'⟩ := tokensFrom_of_start reads' listed' (by omega)
  refine ⟨?_, String.toList_injective text.symm, ?_⟩
  · have distinct := (lexicon.tokensFrom_tile spellings start (left ++ c :: (rest ++ ahead))).ascending.nodup
    have distinct' := (lexicon.tokensFrom_tile spellings start (left ++ c :: (rest ++ other))).ascending.nodup
    rw [reads] at seen distinct
    rw [reads'] at seen' distinct'
    rw [reads, reads', Token.take_shown distinct seen, Token.take_shown distinct' seen']
  · rw [spelled] at taken
    rw [← text, spelled] at taken'
    refine (lexeme_congr_of_eq (more_eq_length taken.symm) (more_eq_length taken'.symm)).imp (fun same => ?_)
      fun wavers => by rw [spelled]; exact wavers
    rw [← same] at id' channel'
    exact Token.ext (id'.trans id.symm) (String.toList_injective text.symm) begins (channel'.trans channel.symm)

end Lexicon

end Typeahead
