import Typeahead.Proofs.Completion.Appending

/-!
Blanks between the literals that are appended. There is one in front of a literal exactly where the literal
would not be a token of its own without it, and with it the literal always is.
-/

namespace Typeahead

namespace Lexicon

open Text

variable {lexicon : Lexicon} {spellings : List (List Char × TokenId)} {chars ahead : List Char}

/-- Where a token begins, the tokens are those of what stands behind, whatever those before are. -/
theorem Breaks.exists_tokensFrom (breaks : Breaks lexicon spellings chars ahead) (start : Nat) :
    ∃ earlier, lexicon.tokensFrom spellings start (chars ++ ahead) =
      earlier ++ lexicon.tokensFrom spellings (start + byteLength chars) ahead := by
  induction breaks generalizing start with
  | here => exact ⟨[], rfl⟩
  | later within others ih =>
    rw [tokensFrom_of_within within]
    obtain ⟨earlier, more⟩ := ih _
    rw [byteLength_of_within] at more
    exact ⟨_ :: earlier, by rw [List.cons_append, ← more]⟩

end Lexicon

namespace Completer

open Text

/-- Behind a text, a literal is read as the last token, and one of its own. -/
def ReadsLast (completer : Completer) (text literal : String) : Prop :=
  ∃ id earlier, completer.grammar.vocabulary.literalId? literal = some id ∧
    completer.lexer.tokenize (text ++ literal) =
      .ok (earlier ++ [⟨id, literal, text.utf8ByteSize, .default⟩])

/-- A text that is grown by literals. Those of the vocabulary are read as tokens of their own behind what
stands before them, with a blank in front only if they would not be without it. -/
inductive Separated (completer : Completer) : (text : String) → (literals : List String) →
    (grown : String) → Prop where
  | nil {text : String} : Separated completer text [] text
  | unknown {text literal grown : String} {literals : List String}
      (unknown : completer.grammar.vocabulary.literalId? literal = none)
      (others : Separated completer (text ++ literal) literals grown) :
      Separated completer text (literal :: literals) grown
  | glued {text literal grown : String} {literals : List String}
      (alone : completer.ReadsLast text literal)
      (others : Separated completer (text ++ literal) literals grown) :
      Separated completer text (literal :: literals) grown
  | spaced {text literal grown : String} {literals : List String}
      (merged : ¬ completer.ReadsLast text literal) (alone : completer.ReadsLast (text ++ " ") literal)
      (others : Separated completer (text ++ " " ++ literal) literals grown) :
      Separated completer text (literal :: literals) grown

def knows (completer : Completer) (literal : String) : Bool :=
  (completer.grammar.vocabulary.literalId? literal).isSome

variable {completer : Completer} {lexicon : Lexicon} {text literal grown : String} {literals : List String}
  {id : TokenId} {budget : Nat}

theorem ReadsLast.knows (alone : completer.ReadsLast text literal) : completer.knows literal = true := by
  obtain ⟨id, _, known, _⟩ := alone
  rw [Completer.knows, known, Option.isSome_some]

theorem ReadsLast.needsBlank? (alone : completer.ReadsLast text literal) :
    completer.needsBlank? (text ++ literal) literal = some false := by
  obtain ⟨id, earlier, _, read⟩ := alone
  rw [Completer.needsBlank?, read]
  simp [Token.stop, String.utf8ByteSize_append]

section Lexer

variable (plain : lexicon.Plain) (lexes : completer.lexer = lexicon.lexer)
  (same : completer.grammar.vocabulary = lexicon.vocabulary)

include plain lexes

theorem needsBlank?_isSome : (completer.needsBlank? text literal).isSome = true := by
  rw [needsBlank?, lexes, plain.tokenize]
  dsimp only
  split <;> rfl

include same

theorem readsLast_spaced (known : lexicon.vocabulary.literalId? literal = some id) :
    completer.ReadsLast (text ++ " ") literal :=
  ⟨id, lexicon.seen 0 text.toList, by rw [same, known],
    by rw [lexes, plain.tokenize, seen_spaced_literal plain known]⟩

theorem readsLast_of_needsBlank? (known : lexicon.vocabulary.literalId? literal = some id)
    (last : completer.needsBlank? (text ++ literal) literal = some false) :
    completer.ReadsLast text literal := by
  obtain ⟨earlier, split⟩ := (breaks_of_needsBlank? plain lexes last).exists_tokensFrom 0
  refine ⟨id, earlier.filter fun token => token.channel = .default, by rw [same, known], ?_⟩
  rw [lexes, plain.tokenize, String.toList_append, Lexicon.seen, split, List.filter_append,
    plain.tokensFrom_literal known, byteLength_toList, Nat.zero_add]
  rfl

theorem needsBlank?_eq_true_iff (known : lexicon.vocabulary.literalId? literal = some id) :
    completer.needsBlank? (text ++ literal) literal = some true ↔ ¬ completer.ReadsLast text literal := by
  constructor
  · intro needs alone
    rw [alone.needsBlank?] at needs
    cases needs
  · intro merged
    have answers : (completer.needsBlank? (text ++ literal) literal).isSome = true :=
      needsBlank?_isSome plain lexes
    obtain ⟨needs, answered⟩ := Option.isSome_iff_exists.mp answers
    cases needs with
    | true => exact answered
    | false => exact absurd (readsLast_of_needsBlank? plain lexes same known answered) merged

/-- Literals are appended, if the budget is enough to look at each of the vocabulary once. -/
theorem appendLiterals_eq_some_iff : (completer.appendLiterals literals text budget).1 = some grown ↔
    literals.countP completer.knows ≤ budget ∧ completer.Separated text literals grown := by
  induction literals generalizing text budget with
  | nil =>
    constructor
    · rintro ⟨⟩
      exact ⟨Nat.zero_le _, .nil⟩
    · rintro ⟨_, separated⟩
      cases separated
      rfl
  | cons literal literals ih =>
    rw [appendLiterals, List.countP_cons]
    cases known : lexicon.vocabulary.literalId? literal with
    | none =>
      have unknown : completer.knows literal = false := by rw [knows, same, known, Option.isSome_none]
      rw [if_neg (by rw [same, known]; decide), ih, unknown]
      refine and_congr Iff.rfl ⟨fun others => .unknown (by rw [same, known]) others, fun separated => ?_⟩
      cases separated with
      | unknown _ others => exact others
      | glued alone => cases unknown.symm.trans alone.knows
      | spaced _ alone => cases unknown.symm.trans alone.knows
    | some id =>
      have listed : completer.knows literal = true := by rw [knows, same, known, Option.isSome_some]
      have unlisted : completer.grammar.vocabulary.literalId? literal ≠ none := by
        rw [same, known]
        exact Option.some_ne_none id
      rw [if_pos (by rw [same, known, Option.isSome_some]), listed, if_pos rfl]
      cases budget with
      | zero =>
        constructor
        · rintro ⟨⟩
        · rintro ⟨enough, _⟩
          exact absurd enough (Nat.not_succ_le_zero _)
      | succ budget =>
        rw [Nat.succ_le_succ_iff]
        by_cases alone : completer.ReadsLast text literal
        · simp only [spend, alone.needsBlank?, ih]
          refine and_congr Iff.rfl ⟨fun others => .glued alone others, fun separated => ?_⟩
          cases separated with
          | unknown none => exact absurd none unlisted
          | glued _ others => exact others
          | spaced merged => exact absurd alone merged
        · simp only [spend, (needsBlank?_eq_true_iff plain lexes same known).mpr alone, ih]
          refine and_congr Iff.rfl ⟨fun others => .spaced alone (readsLast_spaced plain lexes same known) others,
            fun separated => ?_⟩
          cases separated with
          | unknown none => exact absurd none unlisted
          | glued among => exact absurd among alone
          | spaced _ _ others => exact others

end Lexer

/-- Every literal of the vocabulary that is appended is a token of its own there, with a blank in front
exactly where it would not be one without. Nothing but a budget that is too small keeps literals from
being appended. -/
theorem extendedResult_separates (plain : lexicon.Plain) (lexes : completer.lexer = lexicon.lexer)
    (same : completer.grammar.vocabulary = lexicon.vocabulary) (content : String) (proposal : Proposal)
    (budget : Nat) (result : String) :
    (completer.extendedResult content proposal budget).1 = some result ↔
      proposal.site.mandatoryAfter.countP completer.knows ≤ budget ∧
        ∃ grown, completer.Separated (proposal.front content) proposal.site.mandatoryAfter grown ∧
          result = grown ++ (Text.after? content proposal.stop).getD "" := by
  rw [extendedResult, Option.map_eq_some_iff]
  constructor
  · rintro ⟨grown, appended, whole⟩
    obtain ⟨enough, separated⟩ := (appendLiterals_eq_some_iff plain lexes same).mp appended
    exact ⟨enough, grown, separated, whole.symm⟩
  · rintro ⟨enough, grown, separated, whole⟩
    exact ⟨grown, (appendLiterals_eq_some_iff plain lexes same).mpr ⟨enough, separated⟩, whole.symm⟩

/-- The first literal is a token of its own as it is, and the second one would become part of an arrow. -/
theorem extendedResult_separates_edge :
    let completer := Sample.edgeCompleter [.literal "-", .literal ">"]
    ∃ proposals proposal, completer.proposals (.atEnd "fo") "edge" = .ok proposals ∧
      proposal ∈ proposals ∧ proposal.site.mandatoryAfter = ["-", ">"] ∧
      (completer.extendedResult "fo" proposal 2).1 = some "foo- >" ∧
      completer.Separated "foo" ["-", ">"] "foo- >" := by
  intro completer
  have leads : ((completer.proposals (.atEnd "fo") "edge").toOption.bind List.head?).map (fun proposal =>
      (proposal.site.mandatoryAfter, proposal.front "fo", proposal.stop,
        (completer.extendedResult "fo" proposal 2).1)) =
      some (["-", ">"], "foo", 2, some "foo- >") := by
    decide +kernel
  obtain ⟨proposal, found, facts⟩ := Option.map_eq_some_iff.mp leads
  obtain ⟨proposals, proposed, first⟩ := Option.bind_eq_some_iff.mp found
  simp only [Prod.mk.injEq] at facts
  obtain ⟨literals, front, stop, extended⟩ := facts
  obtain ⟨_, grown, separated, whole⟩ := (extendedResult_separates Sample.edgeLexicon_plain rfl rfl "fo"
    proposal 2 "foo- >").mp extended
  have none : (Text.after? "fo" 2).getD "" = "" := by decide +kernel
  rw [stop, none, String.append_empty] at whole
  rw [front, literals, ← whole] at separated
  exact ⟨proposals, proposal, eq_ok_of_toOption proposed, List.mem_of_head? first, literals, extended,
    separated⟩

end Completer

end Typeahead
