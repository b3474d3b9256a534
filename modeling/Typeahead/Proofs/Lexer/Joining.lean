import Typeahead.Proofs.Lexer.Spacing

/-!
Texts joined by blanks. Where no token but blanks can hold a blank, the tokens of the whole are those of one
text and then those of the other, which stand further behind.
-/

namespace Typeahead

open Text

/-- The same token, so many bytes further behind. -/
def Token.move (distance : Nat) (token : Token) : Token := { token with start := token.start + distance }

namespace Lexicon

variable {lexicon : Lexicon}

/-- What is read does not depend on where the text begins, but for the places of the tokens. -/
theorem tokensFrom_add (lexicon : Lexicon) (spellings : List (List Char × TokenId)) (start distance : Nat)
    (chars : List Char) : lexicon.tokensFrom spellings (start + distance) chars =
      (lexicon.tokensFrom spellings start chars).map (Token.move distance) := by
  induction start, chars using tokensFrom.induct lexicon spellings with
  | case1 start => rw [tokensFrom, tokensFrom, List.map_nil]
  | case2 start c rest lexeme text ih =>
    rw [tokensFrom_cons, tokensFrom_cons, List.map_cons, ← ih, Nat.add_right_comm]
    rfl

theorem seen_add (lexicon : Lexicon) (start distance : Nat) (chars : List Char) :
    lexicon.seen (start + distance) chars = (lexicon.seen start chars).map (Token.move distance) := by
  rw [seen, tokensFrom_add, List.filter_map]
  rfl

/-- Blanks between two texts part them: each is read as it is read alone, whatever the other one holds and
however many blanks the two have at the cut. -/
theorem tokenize_joined (solid : lexicon.Solid) (endless : lexicon.Endless) (left right : String)
    {gap : String} (nonempty : gap ≠ "") (blank : ∀ c ∈ gap.toList, isBlank c = true) :
    ∃ before behind, lexicon.lexer.tokenize left = .ok before ∧ lexicon.lexer.tokenize right = .ok behind ∧
      lexicon.lexer.tokenize (left ++ gap ++ right) =
        .ok (before ++ behind.map (Token.move (left ++ gap).utf8ByteSize)) := by
  refine ⟨_, _, endless.tokenize left, endless.tokenize right, ?_⟩
  have apart := solid.seen_spaced blank (mt String.toList_eq_nil_iff.mp nonempty) 0 left.toList right.toList
  rw [← List.append_assoc, ← String.toList_append, byteLength_toList, seen_add] at apart
  rw [endless.tokenize, String.toList_append, apart]

end Lexicon

namespace Sample

/-- Names and numbers, with a literal that ends in a letter and one that could go on as a fraction. -/
def countLexicon : Lexicon where
  vocabulary := vocabulary [.literal "for" ⟨1⟩, .literal "." ⟨2⟩, .name "NAME" ⟨3⟩, .name "NUMBER" ⟨4⟩]
  identifier := some ⟨3⟩
  number := some ⟨4⟩

theorem countLexicon_solid : countLexicon.Solid where
  unquoted := rfl
  literals := by
    intro text id known
    have all : countLexicon.spellings.all (fun spelling => spelling.1.all fun c => !isBlank c) = true := by
      decide +kernel
    have dark := List.all_eq_true.mp all _ (countLexicon.mem_spellings known)
    simpa using dark

theorem countLexicon_endless : countLexicon.Endless where
  literals := Lexicon.literalId?_ne_of_spellings (by decide +kernel)
  identifier := by decide
  number := by decide
  quoted := by decide
  blanks := by decide

end Sample

/-- Without the blanks, of which one takes three bytes, `1.5` and `fore` would be single tokens. -/
theorem Lexicon.tokenize_joined_count :
    Sample.countLexicon.Solid ∧ Sample.countLexicon.Endless ∧ "\t\u2003" ≠ "" ∧
      (∀ c ∈ "\t\u2003".toList, isBlank c = true) ∧
      Sample.countLexicon.lexer.tokenize "for 1." = .ok [⟨⟨1⟩, "for", 0, .default⟩,
        ⟨⟨4⟩, "1", 4, .default⟩, ⟨⟨2⟩, ".", 5, .default⟩] ∧
      Sample.countLexicon.lexer.tokenize "5e" = .ok [⟨⟨4⟩, "5", 0, .default⟩, ⟨⟨3⟩, "e", 1, .default⟩] ∧
      Sample.countLexicon.lexer.tokenize "for 1.\t\u20035e" = .ok [⟨⟨1⟩, "for", 0, .default⟩,
        ⟨⟨4⟩, "1", 4, .default⟩, ⟨⟨2⟩, ".", 5, .default⟩, ⟨⟨4⟩, "5", 10, .default⟩,
        ⟨⟨3⟩, "e", 11, .default⟩] := by
  have blank : ∀ c ∈ "\t\u2003".toList, isBlank c = true := List.all_eq_true.mp (by decide +kernel)
  obtain ⟨before, behind, left, right, whole⟩ := tokenize_joined Sample.countLexicon_solid
    Sample.countLexicon_endless "for 1." "5e" (by decide : "\t\u2003" ≠ "") blank
  have readLeft : Sample.countLexicon.lexer.tokenize "for 1." = .ok [⟨⟨1⟩, "for", 0, .default⟩,
      ⟨⟨4⟩, "1", 4, .default⟩, ⟨⟨2⟩, ".", 5, .default⟩] := by decide +kernel
  have readRight : Sample.countLexicon.lexer.tokenize "5e" =
      .ok [⟨⟨4⟩, "5", 0, .default⟩, ⟨⟨3⟩, "e", 1, .default⟩] := by decide +kernel
  rw [readLeft] at left
  rw [readRight] at right
  rw [← Except.ok.inj left, ← Except.ok.inj right] at whole
  exact ⟨Sample.countLexicon_solid, Sample.countLexicon_endless, by decide, blank, readLeft, readRight, whole⟩

end Typeahead
