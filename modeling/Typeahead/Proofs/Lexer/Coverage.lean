import Mathlib.Data.List.Chain
import Mathlib.Data.List.Nodup
import Typeahead.Grammar.Sample
import Typeahead.Proofs.Lexer.Separation

/-!
What the tokens of a text cover. They lie end to end over the whole of it, those that are hidden hold
nothing but blanks, and every other one begins with a character that is not blank.
-/

namespace Typeahead

open Text

namespace Token

variable {start : Nat} {chars : List Char} {token : Token} {tokens : List Token}

/-- The tokens that grammars see: those of the default channel up to the end of the input. -/
def shown (tokens : List Token) : List Token :=
  (tokens.takeWhile fun token => !token.isEof).filter fun token => token.channel = .default

theorem shown_cons (token : Token) (tokens : List Token) : shown (token :: tokens) =
    if token.isEof then []
    else if token.channel = .default then token :: shown tokens
    else shown tokens := by
  cases ends : token.isEof with
  | true => simp [shown, ends]
  | false => by_cases seen : token.channel = .default <;> simp [shown, ends, seen]

theorem shown_sublist (tokens : List Token) : (shown tokens).Sublist tokens :=
  List.filter_sublist.trans (List.takeWhile_sublist _)

/-- The tokens that are seen before one of them are those that are seen before it without the rest. -/
theorem take_shown {front back : List Token} (distinct : (front ++ token :: back).Nodup) {place : Nat}
    (seen : (shown (front ++ token :: back))[place]? = some token) :
    (shown (front ++ token :: back)).take place = shown front := by
  induction front generalizing place with
  | nil =>
    have absent : ∀ place, (shown back)[place]? ≠ some token := fun place later =>
      (List.nodup_cons.mp distinct).1 ((shown_sublist back).mem (List.mem_of_getElem? later))
    rw [List.nil_append, shown_cons] at seen ⊢
    split at seen
    · cases seen
    · split at seen
      · cases place with
        | zero => rfl
        | succ place => exact absurd seen (absent place)
      · exact absurd seen (absent place)
  | cons first front ih =>
    obtain ⟨apart, distinct⟩ := List.nodup_cons.mp distinct
    rw [List.cons_append, shown_cons] at seen ⊢
    rw [shown_cons]
    split at seen
    · cases seen
    · rename_i inner
      rw [if_neg inner, if_neg inner]
      split at seen
      · rename_i default
        rw [if_pos default, if_pos default]
        cases place with
        | zero =>
          cases seen
          exact absurd (List.mem_append_right front List.mem_cons_self) apart
        | succ place => rw [List.take_succ_cons, ih distinct seen]
      · rename_i hidden
        rw [if_neg hidden, if_neg hidden, ih distinct seen]

theorem shown_eq_filter (inner : ∀ token ∈ tokens, token.id ≠ .eof) :
    shown tokens = tokens.filter fun token => token.channel = .default := by
  rw [shown, List.takeWhile_eq_self_iff.mpr]
  intro token listed
  rw [isEof, beq_false_of_ne (inner token listed)]
  rfl

namespace Tile

theorem first (tile : Tile start chars tokens) : ∀ token ∈ tokens.head?, token.start = start := by
  cases tokens with
  | nil => simp
  | cons token tokens =>
    intro other here
    cases here
    exact tile.1

theorem next (tile : Tile start chars tokens) :
    tokens.IsChain fun token next => next.start = token.stop := by
  induction tokens generalizing start chars with
  | nil => exact .nil
  | cons token tokens ih =>
    obtain ⟨_, _, rest, rfl, others⟩ := tile
    exact List.isChain_cons.mpr ⟨others.first, ih others⟩

theorem last (tile : Tile start chars tokens) :
    (tokens.getLast?.map stop).getD start = start + byteLength chars := by
  induction tokens generalizing start chars with
  | nil =>
    cases tile
    rfl
  | cons token tokens ih =>
    obtain ⟨here, _, rest, rfl, others⟩ := tile
    have ended := ih others
    rw [byteLength_append, byteLength_toList, ← Nat.add_assoc, ← here, ← stop, ← ended,
      List.getLast?_cons]
    cases tokens.getLast? <;> rfl

theorem pairwise (tile : Tile start chars tokens) :
    tokens.Pairwise fun token later => token.stop ≤ later.start := by
  induction tokens generalizing start chars with
  | nil => exact .nil
  | cons token tokens ih =>
    obtain ⟨_, _, rest, rfl, others⟩ := tile
    refine .cons (fun later listed => ?_) (ih others)
    obtain ⟨left, _, _, place⟩ := others.piece listed
    rw [place]
    exact Nat.le_add_right _ _

theorem start_lt_stop (tile : Tile start chars tokens) (listed : token ∈ tokens) :
    token.start < token.stop := by
  have wide := mt String.utf8ByteSize_eq_zero_iff.mp (tile.text_ne listed)
  rw [stop]
  omega

/-- Every character is in one of the tokens. -/
theorem covers (tile : Tile start chars tokens) {left right : List Char} {c : Char}
    (whole : chars = left ++ c :: right) : ∃ token ∈ tokens,
      token.start ≤ start + byteLength left ∧ start + byteLength left < token.stop ∧
        c ∈ token.text.toList := by
  induction tokens generalizing start chars left with
  | nil =>
    cases tile
    simp at whole
  | cons token tokens ih =>
    obtain ⟨here, _, rest, rfl, others⟩ := tile
    rcases List.append_eq_append_iff.mp whole with ⟨middle, rfl, behind⟩ | ⟨middle, front, behind⟩
    · obtain ⟨other, listed, begins, ends, held⟩ := ih others behind
      refine ⟨other, List.mem_cons_of_mem _ listed, ?_, ?_, held⟩
      · rw [byteLength_append, byteLength_toList, ← Nat.add_assoc, ← here]
        exact begins
      · rw [byteLength_append, byteLength_toList, ← Nat.add_assoc, ← here]
        exact ends
    · cases middle with
      | nil =>
        have restarts : rest = [] ++ c :: right := behind.symm
        obtain ⟨other, listed, begins, ends, held⟩ := ih others restarts
        rw [List.append_nil] at front
        rw [← front, byteLength_toList, ← here]
        exact ⟨other, List.mem_cons_of_mem _ listed, begins, ends, held⟩
      | cons d middle =>
        cases behind
        have wide := c.utf8Size_pos
        refine ⟨token, List.mem_cons_self, by omega, ?_, by simp [front]⟩
        rw [stop, here, ← byteLength_toList, front, byteLength_append, byteLength]
        omega

end Tile

/-- Tokens that are not empty and lie end to end over the whole of a text, each a piece of it. -/
structure Partition (text : String) (tokens : List Token) : Prop where
  first : ∀ token ∈ tokens.head?, token.start = 0
  next : tokens.IsChain fun token next => next.start = token.stop
  last : (tokens.getLast?.map stop).getD 0 = text.utf8ByteSize
  nonempty : ∀ token ∈ tokens, token.text ≠ ""
  piece : ∀ token ∈ tokens, Text.between? text token.start token.stop = some token.text
  boundaries : ∀ token ∈ tokens, IsBoundary text token.start ∧ IsBoundary text token.stop

theorem Tile.between? {text : String} (tile : Tile 0 text.toList tokens) (listed : token ∈ tokens) :
    Text.between? text token.start token.stop = some token.text := by
  obtain ⟨left, right, whole, place⟩ := tile.piece listed
  refine between?_eq_some_iff.mpr ⟨String.ofList left, String.ofList right, ?_, ?_, rfl⟩
  · apply String.toList_injective
    rw [whole]
    simp
  · rw [utf8ByteSize_ofList, place, Nat.zero_add]

theorem Tile.partition {text : String} (tile : Tile 0 text.toList tokens) : Partition text tokens where
  first := tile.first
  next := tile.next
  last := by rw [tile.last, Nat.zero_add, byteLength_toList]
  nonempty _ listed := tile.text_ne listed
  piece _ listed := tile.between? listed
  boundaries token listed := by
    obtain ⟨left, right, whole, start, stop⟩ := between?_eq_some_iff.mp (tile.between? listed)
    refine ⟨⟨left, token.text ++ right, by rw [whole, String.append_assoc], start⟩,
      ⟨left ++ token.text, right, whole, ?_⟩⟩
    rw [String.utf8ByteSize_append, start, stop]

/-- Tokens one behind the other: each ends behind its start, and before a later one begins. -/
structure Ascending (tokens : List Token) : Prop where
  wide : ∀ token ∈ tokens, token.start < token.stop
  ordered : tokens.Pairwise fun token later => token.stop ≤ later.start

theorem Tile.ascending (tile : Tile start chars tokens) : Ascending tokens :=
  ⟨fun _ listed => tile.start_lt_stop listed, tile.pairwise⟩

theorem Ascending.sublist {part : List Token} (ascending : Ascending tokens)
    (sublist : part.Sublist tokens) : Ascending part :=
  ⟨fun token listed => ascending.wide token (sublist.mem listed), ascending.ordered.sublist sublist⟩

theorem Ascending.nodup_starts (ascending : Ascending tokens) : (tokens.map Token.start).Nodup := by
  refine List.pairwise_map.mpr (ascending.ordered.imp_of_mem fun {token later} listed _ ordered => ?_)
  have wide := ascending.wide token listed
  omega

theorem Ascending.nodup (ascending : Ascending tokens) : tokens.Nodup :=
  List.Nodup.of_map _ ascending.nodup_starts

/-- Tokens in ascending order that begin with what is not blank and leave out blanks alone. -/
structure Covers (text : String) (tokens : List Token) : Prop extends Ascending tokens where
  begins : ∀ token ∈ tokens, ∃ c rest, token.text.toList = c :: rest ∧ isBlank c = false
  blank : ∀ left c right, text.toList = left ++ c :: right →
    (∀ token ∈ tokens, ¬ (token.start ≤ byteLength left ∧ byteLength left < token.stop)) →
      isBlank c = true

end Token

namespace Lexicon

variable {lexicon : Lexicon} {spellings : List (List Char × TokenId)} {start : Nat}
  {chars rest : List Char} {c : Char} {token : Token} {tokens : List Token}

section Channels

theorem lexeme_of_isBlank (lexicon : Lexicon) (blank : isBlank c = true) (rest : List Char) :
    lexicon.lexeme spellings c rest = ⟨run isBlank rest, lexicon.blankId, .hidden⟩ := by
  simp [lexeme, blankAt?, blank]

theorem channel_of_not_isBlank (lexicon : Lexicon) (dark : isBlank c = false) (rest : List Char) :
    (lexicon.lexeme spellings c rest).channel = .default := by
  rcases lexicon.lexeme_cases spellings c with ⟨blank, _⟩ | ⟨id, _, _, _, found⟩ | ⟨_, found⟩
  · rw [dark] at blank
    cases blank
  · rw [found]
  · rw [found]
    cases literal : literalAt? spellings c rest with
    | some lexeme =>
      obtain ⟨spelling, _, rfl⟩ := Option.map_eq_some_iff.mp literal
      rfl
    | none =>
      rcases lexicon.otherAt_cases c with ⟨id, _, _, found⟩ | ⟨id, _, _, found⟩ | found <;>
        simp [found]

theorem exists_lexeme_of_mem (listed : token ∈ lexicon.tokensFrom spellings start chars) :
    ∃ c rest, token.id = (lexicon.lexeme spellings c rest).id ∧
      token.channel = (lexicon.lexeme spellings c rest).channel ∧
      token.text.toList = c :: rest.take (lexicon.lexeme spellings c rest).more := by
  induction start, chars using tokensFrom.induct lexicon spellings with
  | case1 start =>
    rw [tokensFrom] at listed
    cases listed
  | case2 start c rest lexeme text ih =>
    rw [tokensFrom_cons] at listed
    rcases List.mem_cons.mp listed with rfl | listed
    · exact ⟨c, rest, rfl, rfl, by simp⟩
    · exact ih listed

/-- A token is on the default channel, and then begins with what is not blank, or is all blank. -/
theorem channel_cases (listed : token ∈ lexicon.tokensFrom spellings start chars) :
    (token.channel = .default ∧ ∃ c rest, token.text.toList = c :: rest ∧ isBlank c = false) ∨
      (token.channel = .hidden ∧ ∀ c ∈ token.text.toList, isBlank c = true) := by
  obtain ⟨c, rest, _, channel, text⟩ := exists_lexeme_of_mem listed
  cases blank : isBlank c with
  | false => exact .inl ⟨channel.trans (lexicon.channel_of_not_isBlank blank rest), c, _, text, blank⟩
  | true =>
    rw [lexicon.lexeme_of_isBlank blank] at channel text
    refine .inr ⟨channel, fun d held => ?_⟩
    rw [text] at held
    rcases List.mem_cons.mp held with rfl | held
    · exact blank
    · exact mem_take_run held

end Channels

section Reading

theorem visible_map_ok (tokens : List Token) (size : Nat) :
    Stream.visible (tokens.map .ok ++ [.ok (.eof size)]) = (Token.shown tokens).map .ok := by
  induction tokens with
  | nil => rfl
  | cons token tokens ih =>
    rw [List.map_cons, List.cons_append, Stream.visible, ih, Token.shown_cons]
    split
    · rfl
    · split <;> rfl

theorem allTokens_map_ok (tokens : List Token) : allTokens (tokens.map .ok) = .ok tokens := by
  induction tokens with
  | nil => rfl
  | cons token tokens ih =>
    rw [List.map_cons, allTokens, ih]
    rfl

theorem items_eq (lexicon : Lexicon) (text : String) :
    lexicon.lexer.items text = .ok ((Token.shown (lexicon.tokens text)).map .ok) := by
  rw [Lexer.items, lexer, Except.map, Stream.items, answers_stream, visible_map_ok]

/-- Every text can be read. -/
theorem tokenize_eq (lexicon : Lexicon) (text : String) :
    lexicon.lexer.tokenize text = .ok (Token.shown (lexicon.tokens text)) := by
  rw [Lexer.tokenize, items_eq, Except.bind, allTokens_map_ok]

end Reading

/-- No kind of token has the id of the end of the input. -/
structure Endless (lexicon : Lexicon) : Prop where
  literals : ∀ text, lexicon.vocabulary.literalId? text ≠ some .eof
  identifier : lexicon.identifier ≠ some .eof
  number : lexicon.number ≠ some .eof
  quoted : lexicon.quoted ≠ some .eof
  blanks : lexicon.blankId ≠ .eof

theorem literalId?_ne_of_spellings (others : ∀ spelling ∈ lexicon.spellings, spelling.2 ≠ .eof)
    (text : String) : lexicon.vocabulary.literalId? text ≠ some .eof := by
  intro known
  exact others _ (lexicon.mem_spellings known) rfl

namespace Endless

theorem lexeme_id (endless : lexicon.Endless) (c : Char) (rest : List Char) :
    (lexicon.lexeme lexicon.spellings c rest).id ≠ .eof := by
  rcases lexicon.lexeme_cases lexicon.spellings c with
    ⟨_, found⟩ | ⟨id, _, _, quoted, found⟩ | ⟨_, found⟩
  · rw [found]
    exact endless.blanks
  · rw [found]
    rintro rfl
    exact endless.quoted quoted
  · rw [found]
    cases literal : literalAt? lexicon.spellings c rest with
    | some lexeme =>
      obtain ⟨text, known, _⟩ := literalAt?_eq_some literal
      intro same
      rw [Option.getD_some] at same
      exact endless.literals text (same ▸ known)
    | none =>
      rw [Option.getD_none]
      rcases lexicon.otherAt_cases c with ⟨id, _, named, found⟩ | ⟨id, _, numbered, found⟩ | found
      · rw [found]
        rintro rfl
        exact endless.identifier named
      · rw [found]
        rintro rfl
        exact endless.number numbered
      · rw [found]
        simp [TokenId.eof, TokenId.invalid]

theorem shown_tokensFrom (endless : lexicon.Endless) (start : Nat) (chars : List Char) :
    Token.shown (lexicon.tokensFrom lexicon.spellings start chars) =
      (lexicon.tokensFrom lexicon.spellings start chars).filter fun token => token.channel = .default := by
  refine Token.shown_eq_filter fun token listed => ?_
  obtain ⟨c, rest, id, _⟩ := exists_lexeme_of_mem listed
  rw [id]
  exact endless.lexeme_id c rest

end Endless

theorem tokens_tile (lexicon : Lexicon) (text : String) :
    Token.Tile 0 text.toList (lexicon.tokens text) := lexicon.tokensFrom_tile _ _ _

theorem shown_ascending (lexicon : Lexicon) (text : String) :
    Token.Ascending (Token.shown (lexicon.tokens text)) :=
  (lexicon.tokens_tile text).ascending.sublist (Token.shown_sublist _)

theorem filter_covers (lexicon : Lexicon) (text : String) : Token.Covers text
    ((lexicon.tokens text).filter fun token => token.channel = .default) where
  toAscending := (lexicon.tokens_tile text).ascending.sublist List.filter_sublist
  begins token seen := by
    obtain ⟨listed, channel⟩ := List.mem_filter.mp seen
    rcases channel_cases listed with ⟨_, begins⟩ | ⟨hidden, _⟩
    · exact begins
    · rw [hidden] at channel
      cases channel
  blank left c right whole outside := by
    obtain ⟨token, listed, begins, ends, held⟩ := (lexicon.tokens_tile text).covers whole
    rw [Nat.zero_add] at begins ends
    rcases channel_cases listed with ⟨default, _⟩ | ⟨_, blanks⟩
    · exact absurd ⟨begins, ends⟩ (outside token (List.mem_filter.mpr ⟨listed, by simp [default]⟩))
    · exact blanks c held

/-- A lexer answers with the tokens of a partition of the text, and then with the end of the input for
ever. Where no kind of token has the id of that end, grammars see all of the text but blanks. -/
theorem lexer_partitions (lexicon : Lexicon) (text : String) :
    ∃ stream tokens, lexicon.lexer text = .ok stream ∧
      (∀ n, stream.answer n = .ok (tokens[n]?.getD (.eof text.utf8ByteSize))) ∧
      Token.Partition text tokens ∧
      (lexicon.Endless →
        lexicon.lexer.tokenize text = .ok (tokens.filter fun token => token.channel = .default) ∧
          Token.Covers text (tokens.filter fun token => token.channel = .default)) := by
  refine ⟨lexicon.stream text, lexicon.tokens text, rfl, fun n => ?_,
    (lexicon.tokens_tile text).partition, fun endless => ⟨?_, lexicon.filter_covers text⟩⟩
  · simp only [stream, Stream.ofList, List.getElem?_toArray, List.getElem?_map]
    cases (lexicon.tokens text)[n]? <;> rfl
  · rw [tokenize_eq, tokens, endless.shown_tokensFrom]

end Lexicon

namespace Sample

/-- Assignments of numbers and quoted strings to names. -/
def assignLexicon : Lexicon where
  vocabulary := vocabulary [.name "NAME" ⟨1⟩, .name "NUMBER" ⟨2⟩, .name "QUOTED" ⟨3⟩, .literal "=" ⟨4⟩]
  identifier := some ⟨1⟩
  number := some ⟨2⟩
  quoted := some ⟨3⟩

theorem assignLexicon_endless : assignLexicon.Endless where
  literals := Lexicon.literalId?_ne_of_spellings (by decide +kernel)
  identifier := by decide
  number := by decide
  quoted := by decide
  blanks := by decide

end Sample

/-- The string is not closed, and its escaped quote does not close it. -/
theorem Lexicon.lexer_partitions_assign :
    Sample.assignLexicon.Endless ∧
      Sample.assignLexicon.lexer.tokenize "é =\"\\\"é" =
        .ok [⟨⟨1⟩, "é", 0, .default⟩, ⟨⟨4⟩, "=", 3, .default⟩, ⟨⟨3⟩, "\"\\\"é", 4, .default⟩] ∧
      Token.Covers "é =\"\\\"é"
        [⟨⟨1⟩, "é", 0, .default⟩, ⟨⟨4⟩, "=", 3, .default⟩, ⟨⟨3⟩, "\"\\\"é", 4, .default⟩] := by
  obtain ⟨stream, tokens, _, _, _, seen⟩ := Lexicon.lexer_partitions Sample.assignLexicon "é =\"\\\"é"
  obtain ⟨read, covers⟩ := seen Sample.assignLexicon_endless
  have found : Sample.assignLexicon.lexer.tokenize "é =\"\\\"é" =
      .ok [⟨⟨1⟩, "é", 0, .default⟩, ⟨⟨4⟩, "=", 3, .default⟩, ⟨⟨3⟩, "\"\\\"é", 4, .default⟩] := by
    decide +kernel
  rw [found] at read
  rw [← Except.ok.inj read] at covers
  exact ⟨Sample.assignLexicon_endless, found, covers⟩

end Typeahead
