import Typeahead.Proofs.Lexer.Coverage

/-!
Lexicons without quoted strings, and with literals that hold no blanks. Blanks separate their tokens, so
that the texts before and behind them can be read alone, and a literal on its own is one token.
-/

namespace Typeahead

namespace Lexicon

open Text

/-- There are no quoted strings, and no literal has a blank in it. -/
structure Solid (lexicon : Lexicon) : Prop where
  unquoted : lexicon.quoted = none
  literals : ∀ text id, lexicon.vocabulary.literalId? text = some id → ∀ c ∈ text.toList, isBlank c = false

/-- There are no quoted strings, every literal has a text without blanks, and no kind of token has the id
of the end of the input. -/
structure Plain (lexicon : Lexicon) : Prop where
  unquoted : lexicon.quoted = none
  literals : ∀ text id, lexicon.vocabulary.literalId? text = some id →
    text ≠ "" ∧ (∀ c ∈ text.toList, isBlank c = false) ∧ id ≠ .eof
  identifier : lexicon.identifier ≠ some .eof
  number : lexicon.number ≠ some .eof
  blanks : lexicon.blankId ≠ .eof

/-- The tokens of a text that grammars see. The text begins at byte `start`. -/
def seen (lexicon : Lexicon) (start : Nat) (chars : List Char) : List Token :=
  (lexicon.tokensFrom lexicon.spellings start chars).filter fun token => token.channel = .default

variable {lexicon : Lexicon} {chars rest ahead blanks : List Char} {c : Char}

theorem seen_cons (lexicon : Lexicon) (start : Nat) (c : Char) (rest : List Char) :
    lexicon.seen start (c :: rest) =
      let lexeme := lexicon.lexeme lexicon.spellings c rest
      let text := String.ofList (c :: rest.take lexeme.more)
      ([⟨lexeme.id, text, start, lexeme.channel⟩].filter fun token => token.channel = .default) ++
        lexicon.seen (start + text.utf8ByteSize) (rest.drop lexeme.more) := by
  rw [seen, tokensFrom_cons, ← List.singleton_append, List.filter_append]
  rfl

theorem Plain.solid (plain : lexicon.Plain) : lexicon.Solid :=
  ⟨plain.unquoted, fun text id known => (plain.literals text id known).2.1⟩

theorem Solid.lexeme_of_not_isBlank (solid : lexicon.Solid) (dark : isBlank c = false)
    (rest : List Char) : lexicon.lexeme lexicon.spellings c rest =
      (literalAt? lexicon.spellings c rest).getD (lexicon.otherAt c rest) := by
  rcases lexicon.lexeme_cases lexicon.spellings c with ⟨blank, _⟩ | ⟨id, _, _, quoted, _⟩ | ⟨_, found⟩
  · rw [dark] at blank
    cases blank
  · rw [solid.unquoted] at quoted
    cases quoted
  · exact found rest

section Reading

theorem Plain.endless (plain : lexicon.Plain) : lexicon.Endless where
  literals text known := (plain.literals text .eof known).2.2 rfl
  identifier := plain.identifier
  number := plain.number
  quoted := by simp [plain.unquoted]
  blanks := plain.blanks

theorem Endless.tokenize (endless : lexicon.Endless) (text : String) :
    lexicon.lexer.tokenize text = .ok (lexicon.seen 0 text.toList) := by
  rw [tokenize_eq, tokens, endless.shown_tokensFrom, seen]

theorem Plain.tokenize (plain : lexicon.Plain) (text : String) :
    lexicon.lexer.tokenize text = .ok (lexicon.seen 0 text.toList) := plain.endless.tokenize text

end Reading

section Blanks

variable {b d : Char}

theorem mem_take_fraction (listed : d ∈ chars.take (fraction chars)) : isBlank d = false := by
  cases chars with
  | nil => cases listed
  | cons point others =>
    by_cases apart : point = '.'
    · subst apart
      cases others with
      | nil => cases listed
      | cons e others =>
        rw [fraction] at listed
        split at listed
        · rename_i digit
          rw [Nat.add_comm, List.take_succ_cons, List.take_succ_cons, List.mem_cons,
            List.mem_cons] at listed
          rcases listed with rfl | rfl | listed
          · decide
          · exact isBlank_of_isWord (isWord_of_isDigit digit)
          · exact isBlank_of_isWord (isWord_of_isDigit (mem_take_run listed))
        · cases listed
    · rw [fraction_of_ne_point apart] at listed
      cases listed

/-- No token but a blank one holds a blank. -/
theorem Solid.isBlank_of_mem (solid : lexicon.Solid) (dark : isBlank c = false)
    (listed : d ∈ rest.take (lexicon.lexeme lexicon.spellings c rest).more) : isBlank d = false := by
  rw [solid.lexeme_of_not_isBlank dark] at listed
  cases literal : literalAt? lexicon.spellings c rest with
  | some lexeme =>
    rw [literal, Option.getD_some] at listed
    obtain ⟨text, known, _, whole, _⟩ := literalAt?_eq_some literal
    exact solid.literals text _ known d (by rw [whole]; exact List.mem_cons_of_mem _ listed)
  | none =>
    rw [literal, Option.getD_none] at listed
    rcases lexicon.otherAt_cases c with ⟨id, _, _, found⟩ | ⟨id, _, _, found⟩ | found
    · rw [found] at listed
      exact isBlank_of_isWord (mem_take_run listed)
    · rw [found] at listed
      simp only [numberTail, List.take_add, List.mem_append] at listed
      rcases listed with digits | behind
      · exact isBlank_of_isWord (isWord_of_isDigit (mem_take_run digits))
      · exact mem_take_fraction behind
    · rw [found] at listed
      simp only at listed
      split at listed
      · exact isBlank_of_isWord (mem_take_run listed)
      · cases listed

theorem Solid.lexeme_spaced (solid : lexicon.Solid) (dark : isBlank c = false) (gap : isBlank b = true)
    (rest ahead : List Char) :
    (lexicon.lexeme lexicon.spellings c rest).more ≤ rest.length ∧
      lexicon.lexeme lexicon.spellings c (rest ++ b :: ahead) =
        lexicon.lexeme lexicon.spellings c rest := by
  have within : (lexicon.lexeme lexicon.spellings c (rest ++ b :: ahead)).more ≤ rest.length := by
    by_contra beyond
    have held : b ∈ (rest ++ b :: ahead).take
        (lexicon.lexeme lexicon.spellings c (rest ++ b :: ahead)).more := by
      refine List.mem_of_getElem? (i := rest.length) ?_
      rw [List.getElem?_take_of_lt (Nat.lt_of_not_le beyond), List.getElem?_append_right (Nat.le_refl _),
        Nat.sub_self]
      rfl
    rw [solid.isBlank_of_mem dark held] at gap
    cases gap
  have same := lexeme_append_of_le within fun runsOn => by
    have word := runsOn.2.2
    rw [List.head?_cons, Option.any_some, isWord_of_isBlank gap] at word
    cases word
  exact ⟨same ▸ within, same⟩

/-- Blanks in front of a text are not seen. -/
theorem seen_dropBlank (lexicon : Lexicon) (start : Nat) (chars : List Char) :
    lexicon.seen start chars =
      lexicon.seen (start + byteLength (chars.takeWhile isBlank)) (chars.dropWhile isBlank) := by
  cases chars with
  | nil => rfl
  | cons c rest =>
    cases blank : isBlank c with
    | false => simp [blank, byteLength]
    | true =>
      have hidden : (Channel.hidden = Channel.default) = False := by decide
      rw [seen_cons, lexicon.lexeme_of_isBlank blank]
      simp only [List.filter_cons, List.filter_nil, hidden, decide_false, Bool.false_eq_true, if_false]
      rw [List.nil_append, take_run, drop_run, utf8ByteSize_ofList, List.takeWhile_cons_of_pos blank,
        List.dropWhile_cons_of_pos blank]

theorem seen_blanks (lexicon : Lexicon) (gap : ∀ b ∈ blanks, isBlank b = true) (start : Nat)
    (chars : List Char) :
    lexicon.seen start (blanks ++ chars) = lexicon.seen (start + byteLength blanks) chars := by
  rw [seen_dropBlank, List.takeWhile_append_of_pos gap, List.dropWhile_append_of_pos gap,
    byteLength_append, ← Nat.add_assoc, ← seen_dropBlank]

/-- Blanks separate tokens: what stands before them and what stands behind them is read alone. -/
theorem Solid.seen_spaced (solid : lexicon.Solid) (gap : ∀ b ∈ blanks, isBlank b = true)
    (nonempty : blanks ≠ []) (start : Nat) (chars ahead : List Char) :
    lexicon.seen start (chars ++ (blanks ++ ahead)) =
      lexicon.seen start chars ++ lexicon.seen (start + byteLength (chars ++ blanks)) ahead := by
  induction start, chars using tokensFrom.induct lexicon lexicon.spellings with
  | case1 start =>
    rw [List.nil_append, List.nil_append, lexicon.seen_blanks gap]
    simp [seen, tokensFrom]
  | case2 start c rest lexeme text ih =>
    by_cases all : ∀ d ∈ c :: rest, isBlank d = true
    · -- The blanks go on those at the end.
      have allBlank : ∀ d ∈ c :: rest ++ blanks, isBlank d = true := fun d listed =>
        (List.mem_append.mp listed).elim (all d) (gap d)
      have nothing := lexicon.seen_blanks all start []
      rw [List.append_nil] at nothing
      rw [← List.append_assoc, lexicon.seen_blanks allBlank, nothing]
      simp [seen, tokensFrom]
    · have same : lexeme.more ≤ rest.length ∧
          lexicon.lexeme lexicon.spellings c (rest ++ (blanks ++ ahead)) = lexeme := by
        obtain ⟨b, others, rfl⟩ := List.exists_cons_of_ne_nil nonempty
        cases blank : isBlank c with
        | false => exact solid.lexeme_spaced blank (gap b List.mem_cons_self) rest (others ++ ahead)
        | true =>
          have stops : run isBlank rest ≠ rest.length := by
            intro whole
            have others : ∀ d ∈ rest.take (run isBlank rest), isBlank d = true := fun _ => mem_take_run
            rw [whole, List.take_length] at others
            exact all (List.forall_mem_cons.mpr ⟨blank, others⟩)
          have found : lexeme = _ := lexicon.lexeme_of_isBlank blank rest
          rw [lexicon.lexeme_of_isBlank blank, found, run_append, if_neg stops]
          exact ⟨run_le_length isBlank rest, rfl⟩
      obtain ⟨within, same⟩ := same
      rw [List.cons_append, seen_cons, seen_cons, same]
      dsimp only
      rw [List.take_append_of_le_length within, List.drop_append_of_le_length within]
      have place : start + text.utf8ByteSize + byteLength (rest.drop lexeme.more ++ blanks) =
          start + byteLength (c :: (rest ++ blanks)) := by
        have split := congrArg byteLength (List.take_append_drop lexeme.more rest)
        rw [byteLength_append] at split
        simp only [text, utf8ByteSize_ofList, byteLength, byteLength_append]
        omega
      rw [place] at ih
      rw [List.append_assoc]
      exact congrArg _ ih

end Blanks

/-- A literal alone is one token. -/
theorem Plain.tokensFrom_literal (plain : lexicon.Plain) {text : String} {id : TokenId}
    (known : lexicon.vocabulary.literalId? text = some id) (start : Nat) :
    lexicon.tokensFrom lexicon.spellings start text.toList = [⟨id, text, start, .default⟩] := by
  obtain ⟨nonempty, dark, _⟩ := plain.literals text id known
  have spelled := lexicon.mem_spellings known
  cases chars : text.toList with
  | nil => exact absurd (String.toList_eq_nil_iff.mp chars) nonempty
  | cons c rest =>
    rw [chars] at dark spelled
    have stands : standsAt (c :: rest) (c :: rest) = true :=
      standsAt_iff.mpr ⟨List.cons_ne_nil c rest, List.prefix_rfl, by simp⟩
    have found := plain.solid.lexeme_of_not_isBlank (dark c List.mem_cons_self) rest
    cases literal : literalAt? lexicon.spellings c rest with
    | none =>
      have missing := longest_eq_none (Option.map_eq_none_iff.mp literal)
      exact absurd stands (List.filter_eq_nil_iff.mp missing (c :: rest, id) spelled)
    | some lexeme =>
      obtain ⟨whole, knownWhole, shown, front, bound⟩ := literalAt?_eq_some literal
      have size := bound (c :: rest, id) spelled stands
      rw [front, List.length_cons, List.length_cons, List.length_take] at size
      have all : rest.length ≤ lexeme.more := by omega
      rw [List.take_of_length_le all, ← chars] at front
      rw [String.toList_injective front, known] at knownWhole
      rw [tokensFrom_cons, found, literal, Option.getD_some]
      dsimp only
      rw [List.take_of_length_le all, List.drop_of_length_le all, ← chars, String.ofList_toList, shown,
        ← Option.some.inj knownWhole, tokensFrom]

end Lexicon

end Typeahead
