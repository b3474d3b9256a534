import Typeahead.Proofs.Lexer.Coverage

/-!
Reading taken up again behind a token that is seen. The next such token stands there behind blanks, and all
tokens from it on are those of the text behind that place.
-/

namespace Typeahead

open Text

/-- Where the token before a position ends. A text of which no token has been read begins at byte
`start`. -/
def Token.stopBefore (start : Nat) (tokens : List Token) : (position : Nat) → Nat
  | 0 => start
  | before + 1 => (tokens[before]?.map Token.stop).getD start

namespace Lexicon

variable {lexicon : Lexicon} {spellings : List (List Char × TokenId)} {start position : Nat}
  {chars : List Char} {token : Token} {tokens : List Token}

/-- The first token that is seen stands behind blanks, and the others are seen in what is left. -/
theorem shown_eq_cons
    (seen : Token.shown (lexicon.tokensFrom spellings start chars) = token :: tokens) :
    ∃ blanks rest, chars = blanks ++ (token.text.toList ++ rest) ∧ (∀ b ∈ blanks, isBlank b = true) ∧
      (∃ c others, token.text.toList = c :: others ∧ isBlank c = false) ∧
      token.start = start + byteLength blanks ∧
      tokens = Token.shown (lexicon.tokensFrom spellings token.stop rest) := by
  induction start, chars using tokensFrom.induct lexicon spellings with
  | case1 start =>
    rw [tokensFrom] at seen
    cases seen
  | case2 start c rest lexeme text ih =>
    have split : c :: rest = text.toList ++ rest.drop lexeme.more := by simp [text]
    rw [tokensFrom_cons, Token.shown_cons] at seen
    split at seen
    · cases seen
    · cases blank : isBlank c with
      | true =>
        rw [if_neg (by rw [lexicon.lexeme_of_isBlank blank]; simp [Channel.hidden, Channel.default])] at seen
        obtain ⟨blanks, behind, parts, all, begins, place, others⟩ := ih seen
        refine ⟨text.toList ++ blanks, behind, ?_, ?_, begins, ?_, others⟩
        · rw [split, parts, List.append_assoc]
        · intro b held
          rcases List.mem_append.mp held with held | held
          · have run : text.toList = c :: rest.take (run isBlank rest) := by
              simp [text, lexeme, lexicon.lexeme_of_isBlank blank]
            rw [run] at held
            rcases List.mem_cons.mp held with rfl | held
            · exact blank
            · exact mem_take_run held
          · exact all b held
        · rw [place, byteLength_append, byteLength_toList, Nat.add_assoc]
      | false =>
        rw [if_pos (lexicon.channel_of_not_isBlank blank rest)] at seen
        cases seen
        exact ⟨[], rest.drop lexeme.more, split, by simp, ⟨c, rest.take lexeme.more, by simp [lexeme], blank⟩,
          rfl, rfl⟩

/-- Where nothing is seen there are only blanks. -/
theorem Endless.isBlank_of_shown_eq_nil (endless : lexicon.Endless)
    (none : Token.shown (lexicon.tokensFrom lexicon.spellings start chars) = []) :
    ∀ c ∈ chars, isBlank c = true := by
  intro c held
  obtain ⟨left, right, whole⟩ := List.append_of_mem held
  obtain ⟨token, listed, _, _, among⟩ := (lexicon.tokensFrom_tile lexicon.spellings start chars).covers whole
  rw [endless.shown_tokensFrom, List.filter_eq_nil_iff] at none
  rcases channel_cases listed with ⟨default, _⟩ | ⟨_, blanks⟩
  · exact absurd (by simp [default]) (none token listed)
  · exact blanks c among

/-- A text can be cut behind each token that is seen, and the tokens from there on are those of the second
part. -/
theorem shown_drop (seen : Token.shown (lexicon.tokensFrom spellings start chars) = tokens)
    (within : position ≤ tokens.length) :
    ∃ left rest, chars = left ++ rest ∧
      start + byteLength left = Token.stopBefore start tokens position ∧
      tokens.drop position =
        Token.shown (lexicon.tokensFrom spellings (start + byteLength left) rest) := by
  induction position generalizing start chars tokens with
  | zero => exact ⟨[], chars, rfl, rfl, seen.symm⟩
  | succ before ih =>
    cases tokens with
    | nil => cases within
    | cons token tokens =>
      obtain ⟨blanks, rest, rfl, _, _, place, others⟩ := shown_eq_cons seen
      obtain ⟨left, behind, rfl, stops, remain⟩ := ih others.symm (Nat.le_of_succ_le_succ within)
      have size : start + byteLength (blanks ++ (token.text.toList ++ left)) =
          token.stop + byteLength left := by
        rw [Token.stop, place, byteLength_append, byteLength_append, byteLength_toList]
        omega
      refine ⟨blanks ++ (token.text.toList ++ left), behind, by simp, ?_, ?_⟩
      · rw [size, stops]
        cases before with
        | zero => rfl
        | succ before =>
          have inside : before < tokens.length := by
            rw [List.length_cons] at within
            omega
          simp [Token.stopBefore, inside]
      · rw [size, List.drop_succ_cons, remain]

end Lexicon

end Typeahead
