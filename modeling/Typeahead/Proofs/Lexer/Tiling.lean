import Typeahead.Lexer.Lexicon
import Typeahead.Proofs.Text.Boundary

/-!
The tokens of a text lie end to end in it. So whatever a lexicon makes of a text, all of its tokens are
pieces of the text, cut out between characters.
-/

namespace Typeahead

/-- Tokens that are not empty and lie end to end over characters, of which the first stands at byte
`start`. -/
def Token.Tile : (start : Nat) → List Char → List Token → Prop
  | _, chars, [] => chars = []
  | start, chars, token :: tokens =>
    token.start = start ∧ token.text ≠ "" ∧
      ∃ rest, chars = token.text.toList ++ rest ∧ Token.Tile token.stop rest tokens

namespace Token

variable {start : Nat} {chars : List Char} {tokens : List Token} {token : Token}

theorem Tile.piece (tile : Tile start chars tokens) (listed : token ∈ tokens) :
    ∃ left right, chars = left ++ token.text.toList ++ right ∧
      token.start = start + Text.byteLength left := by
  induction tokens generalizing start chars with
  | nil => cases listed
  | cons first tokens ih =>
    obtain ⟨here, _, rest, rfl, others⟩ := tile
    rcases List.mem_cons.mp listed with rfl | listed
    · exact ⟨[], rest, rfl, here⟩
    · obtain ⟨left, right, rfl, place⟩ := ih others listed
      refine ⟨first.text.toList ++ left, right, by simp, ?_⟩
      rw [place, stop, here, Text.byteLength_append, Text.byteLength_toList, Nat.add_assoc]

theorem Tile.text_ne (tile : Tile start chars tokens) (listed : token ∈ tokens) : token.text ≠ "" := by
  induction tokens generalizing start chars with
  | nil => cases listed
  | cons first tokens ih =>
    obtain ⟨_, nonempty, _, _, others⟩ := tile
    rcases List.mem_cons.mp listed with rfl | listed
    · exact nonempty
    · exact ih others listed

end Token

namespace Lexicon

variable (lexicon : Lexicon) (spellings : List (List Char × TokenId))

theorem tokensFrom_cons (start : Nat) (c : Char) (rest : List Char) :
    lexicon.tokensFrom spellings start (c :: rest) =
      let lexeme := lexicon.lexeme spellings c rest
      let text := String.ofList (c :: rest.take lexeme.more)
      ⟨lexeme.id, text, start, lexeme.channel⟩ ::
        lexicon.tokensFrom spellings (start + text.utf8ByteSize) (rest.drop lexeme.more) := by
  rw [tokensFrom]

theorem tokensFrom_tile (start : Nat) (chars : List Char) :
    Token.Tile start chars (lexicon.tokensFrom spellings start chars) := by
  induction start, chars using tokensFrom.induct lexicon spellings with
  | case1 start => rw [tokensFrom]; rfl
  | case2 start c rest lexeme text ih =>
    rw [tokensFrom_cons]
    refine ⟨rfl, fun empty => ?_, rest.drop lexeme.more, by simp [lexeme], ih⟩
    have nothing := congrArg String.toList empty
    simp at nothing

end Lexicon

theorem mem_of_mem_visible {token : Token} {answers : List Answer}
    (shown : .ok token ∈ Stream.visible answers) : .ok token ∈ answers := by
  induction answers with
  | nil => cases shown
  | cons answer answers ih =>
    cases answer with
    | error e => simp [Stream.visible] at shown
    | ok first =>
      simp only [Stream.visible] at shown
      split at shown
      · cases shown
      · split at shown
        · rcases List.mem_cons.mp shown with same | shown
          · exact same ▸ List.mem_cons_self
          · exact List.mem_cons_of_mem _ (ih shown)
        · exact List.mem_cons_of_mem _ (ih shown)

/-- The tokens that a lexer yields for a text lie in it, and its ends are places where it can be cut. -/
def Lexer.InBounds (lexer : Lexer) : Prop :=
  ∀ text items token, lexer.items text = .ok items → .ok token ∈ items →
    Text.IsBoundary text token.start ∧ Text.IsBoundary text token.stop

namespace Lexicon

variable (lexicon : Lexicon)

theorem answers_stream (text : String) : (lexicon.stream text).answers =
    (lexicon.tokens text).map .ok ++ [.ok (.eof text.utf8ByteSize)] := by
  apply List.ext_getElem?
  intro place
  simp only [Stream.answers, stream, Stream.ofList, List.size_toArray, List.length_map,
    List.getElem?_map, List.getElem?_append]
  rcases Nat.lt_trichotomy place (lexicon.tokens text).length with inside | rfl | beyond
  · rw [if_pos inside, List.getElem?_range (by omega)]
    simp [inside]
  · rw [List.getElem?_range (by omega)]
    simp
  · rw [if_neg (by omega), List.getElem?_eq_none (by simp; omega),
      List.getElem?_eq_none (by simp; omega)]
    rfl

theorem isBoundary_of_mem_tokens {text : String} {token : Token} (listed : token ∈ lexicon.tokens text) :
    Text.IsBoundary text token.start ∧ Text.IsBoundary text token.stop := by
  obtain ⟨left, right, whole, place⟩ :=
    (lexicon.tokensFrom_tile lexicon.spellings 0 text.toList).piece listed
  have joined : text = String.ofList left ++ token.text ++ String.ofList right := by
    apply String.toList_injective
    rw [whole]
    simp
  rw [Nat.zero_add, ← Text.utf8ByteSize_ofList] at place
  rw [Token.stop, place, joined]
  exact ⟨(Text.IsBoundary.of_append _ _).append_right _,
    by rw [← String.utf8ByteSize_append]; exact Text.IsBoundary.of_append _ _⟩

theorem lexer_inBounds : lexicon.lexer.InBounds := by
  intro text items token read shown
  cases read
  have listed := mem_of_mem_visible shown
  rw [answers_stream, List.mem_append, List.mem_map, List.mem_singleton] at listed
  rcases listed with ⟨_, listed, same⟩ | last
  · cases same
    exact lexicon.isBoundary_of_mem_tokens listed
  · cases last
    exact ⟨.size text, .size text⟩

end Lexicon

end Typeahead
