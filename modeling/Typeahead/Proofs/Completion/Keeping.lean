import Typeahead.Proofs.Completion.Appending
import Typeahead.Proofs.Completion.Budget
import Typeahead.Proofs.Completion.Replacing
import Typeahead.Proofs.Lexer.Stability

/-!
What proposals do to the tokens before them. As long as there is budget to read the results, the tokens that
were parsed stay what they were, so that a proposal is for the position that it stems from. Only the place of
the last one is compared, which is not enough for a literal that can be read as a number.
-/

namespace Typeahead

open Text

namespace Completer

variable {completer : Completer} {buffer : Buffer} {rule : String} {chart : Chart} {lexicon : Lexicon}
  {proposal : Proposal} {offer : Offer} {tokens reread : List Token} {position budget : Nat} {id : NodeId}
  {path : Path}

section Budget

/-- With a budget that is enough for an offer, only what passes the check is proposed. -/
theorem keepsToken_of_mem_proposalsOf
    (listed : proposal ∈ (completer.proposalsOf buffer tokens offer offer.rereads).1)
    (behind : offer.position ≠ 0) : completer.keepsToken tokens offer.position
      ((Text.before? buffer.content proposal.start).getD "") proposal.suggestion = true := by
  rw [proposalsOf_eq] at listed
  obtain ⟨suggestion, kept, rfl⟩ := List.mem_map.mp listed
  rw [keptOf_of_le (by omega), if_neg behind] at kept
  exact (List.mem_filter.mp kept).2

theorem keepsToken_of_mem {offers : List Offer} (enough : (offers.map Offer.rereads).sum ≤ budget)
    (listed : proposal ∈ (completer.proposalsOfAll buffer tokens offers budget).1) :
    ∃ offer ∈ offers, Proposes completer buffer offer proposal ∧ (offer.position ≠ 0 →
      completer.keepsToken tokens offer.position ((Text.before? buffer.content proposal.start).getD "")
        proposal.suggestion = true) := by
  rw [proposalsOfAll_of_le enough] at listed
  obtain ⟨offer, among, listed⟩ := List.mem_flatMap.mp listed
  exact ⟨offer, among, proposes_of_mem listed, keepsToken_of_mem_proposalsOf listed⟩

end Budget

theorem keepsToken_eq_true {before text : String} {suggestion : Suggestion}
    (grown : before ++ suggestion.content = text) (read : completer.lexer.tokenize text = .ok reread)
    (keeps : completer.keepsToken tokens position before suggestion = true) :
    position < reread.length ∧ ∃ old new, tokens[position - 1]? = some old ∧
      reread[position - 1]? = some new ∧ new.start = old.start ∧ new.stop = old.stop := by
  rw [keepsToken, grown, read] at keeps
  dsimp only at keeps
  split at keeps
  · rename_i old new there here
    simp only [Bool.and_eq_true, decide_eq_true_eq, beq_iff_eq] at keeps
    exact ⟨keeps.1.1, old, new, there, here, keeps.1.2, keeps.2⟩
  · cases keeps

/-- The tokens before a position are what they were, and the text goes on behind them. The last of them has
its place and text still, and its kind too unless it wavers. -/
structure Keeps (lexicon : Lexicon) (position : Nat) (tokens reread : List Token) : Prop where
  goes_on : position < reread.length
  before : reread.take (position - 1) = tokens.take (position - 1)
  piece : reread[position - 1]?.map (fun token => (token.start, token.text)) =
    tokens[position - 1]?.map fun token => (token.start, token.text)
  kind : reread.take position = tokens.take position ∨
    ∃ token ∈ tokens[position - 1]?, lexicon.Wavers lexicon.spellings token.text.toList

/-- The text before the caret and the text with a proposal put in share what stands up to the end of the last
token before the proposal. -/
theorem Origin.shared (lexes : completer.lexer = lexicon.lexer)
    (charted : completer.chart buffer rule = .ok chart)
    (origin : Origin completer buffer chart proposal position id path) :
    ∃ left ahead other : List Char, buffer.beforeCaret.toList = left ++ ahead ∧
      (proposal.front buffer.content).toList = left ++ other ∧
      byteLength left = Token.stopBefore 0 chart.tokens position := by
  obtain ⟨_, _, _, checked, _, _⟩ := chart_eq_ok charted
  obtain ⟨after, content, _⟩ := checkCaret_eq_ok checked
  obtain ⟨left, rest, whole, stops, _, start, _⟩ := origin.cut lexes charted
  refine ⟨left, rest, rest.takeWhile isBlank ++ proposal.suggestion.content.toList, whole, ?_, stops⟩
  have before : Text.before? buffer.content proposal.start =
      some (String.ofList (left ++ rest.takeWhile isBlank)) := by
    refine before?_eq_some_iff.mpr ⟨String.ofList (rest.dropWhile isBlank) ++ after, ?_, ?_⟩
    · apply String.toList_injective
      rw [content, String.toList_append, whole]
      simp only [String.toList_append, String.toList_ofList, List.append_assoc]
      rw [← List.append_assoc (rest.takeWhile isBlank), List.takeWhile_append_dropWhile]
    · rw [utf8ByteSize_ofList, start]
  rw [Proposal.front, before, Option.getD_some, String.toList_append, String.toList_ofList, List.append_assoc]

/-- If there is budget enough, what is proposed has passed the check at its position. -/
theorem Origin.keepsToken (lexes : completer.lexer = lexicon.lexer)
    (charted : completer.chart buffer rule = .ok chart) (affords : completer.Affords buffer chart)
    {proposals : List Proposal} (proposed : completer.proposals buffer rule = .ok proposals)
    (listed : proposal ∈ proposals) (origin : Origin completer buffer chart proposal position id path)
    (behind : position ≠ 0) : completer.keepsToken chart.tokens position
      ((before? buffer.content proposal.start).getD "") proposal.suggestion = true := by
  rw [proposals_of_chart charted proposed] at listed
  obtain ⟨offer, offered, proposes, kept⟩ := keepsToken_of_mem affords listed
  have same := origin.position_eq lexes charted offered proposes
  rw [same] at kept
  exact kept behind

theorem Origin.front_eq (charted : completer.chart buffer rule = .ok chart)
    (origin : Origin completer buffer chart proposal position id path) :
    (before? buffer.content proposal.start).getD "" ++ proposal.suggestion.content =
      proposal.front buffer.content := by
  obtain ⟨before, cut⟩ := isBoundary_iff_before?.mp (origin.range charted).1
  rw [Proposal.front, cut, Option.getD_some, Option.getD_some]

/-- Unless there is too little budget, proposals leave the tokens before them as they were. An exception are
literals that end in a digit, if there are numbers: the last token may become a number, or cease to be one. -/
theorem proposals_keep (lexes : completer.lexer = lexicon.lexer)
    (charted : completer.chart buffer rule = .ok chart) (affords : completer.Affords buffer chart)
    {proposals : List Proposal} (proposed : completer.proposals buffer rule = .ok proposals)
    (listed : proposal ∈ proposals)
    (origin : Origin completer buffer chart proposal position id path) (behind : 1 ≤ position) :
    completer.lexer.tokenize buffer.beforeCaret = .ok chart.tokens ∧
      ∃ reread, completer.lexer.tokenize (proposal.front buffer.content) = .ok reread ∧
        Keeps lexicon position chart.tokens reread := by
  have read : ∀ text, completer.lexer.tokenize text = .ok (Token.shown (lexicon.tokens text)) := by
    rw [lexes]
    exact lexicon.tokenize_eq
  refine ⟨by rw [read, chart_tokens lexes charted], _, read _, ?_⟩
  obtain ⟨left, ahead, other, whole, front, stops⟩ := origin.shared lexes charted
  have seen := chart_tokens lexes charted
  rw [Lexicon.tokens, whole] at seen
  rw [Lexicon.tokens, front]
  obtain ⟨goes_on, old, new, here, there, begins, ends⟩ := keepsToken_eq_true (origin.front_eq charted)
    (read _) (origin.keepsToken lexes charted affords proposed listed (Nat.ne_of_gt behind))
  rw [Lexicon.tokens, front] at goes_on there
  obtain ⟨place, rfl⟩ : ∃ place, position = place + 1 := Nat.exists_eq_add_of_le' behind
  rw [Nat.add_sub_cancel] at here there
  rw [Token.stopBefore, here, Option.map_some, Option.getD_some] at stops
  rw [← seen] at here ⊢
  obtain ⟨earlier, text, kind⟩ :=
    Lexicon.shown_take_congr here there begins ends (by rw [stops, Nat.zero_add])
  refine ⟨goes_on, ?_, ?_, ?_⟩
  · rw [Nat.add_sub_cancel, earlier]
  · rw [Nat.add_sub_cancel, here, there, Option.map_some, Option.map_some, text, begins]
  · rcases kind with rfl | wavers
    · exact .inl (by rw [List.take_add_one, List.take_add_one, earlier, here, there])
    · exact .inr ⟨old, by rw [Nat.add_sub_cancel, here]; rfl, wavers⟩

theorem proposals_keep_call :
    let completer := Sample.callCompleter
    ∃ chart proposals, completer.chart (.atEnd "s( b") "call" = .ok chart ∧
      completer.Affords (.atEnd "s( b") chart ∧
      completer.proposals (.atEnd "s( b") "call" = .ok proposals ∧
      proposals.map (·.front "s( b") = ["s( b)", "s( b,", "s( )", "s( sin", "s( sqrt"] ∧
      ∀ proposal ∈ proposals, ∃ position reread, 2 ≤ position ∧
        completer.lexer.tokenize (proposal.front "s( b") = .ok reread ∧
          Keeps Sample.callLexicon position chart.tokens reread := by
  intro completer
  have charts : (completer.chart (.atEnd "s( b") "call").toOption.any (fun chart =>
      chart.positions - 1 = 3 ∧ completer.Affords (.atEnd "s( b") chart) = true := by decide +kernel
  have fronts : (completer.proposals (.atEnd "s( b") "call").toOption.map (·.map (·.front "s( b")) =
      some ["s( b)", "s( b,", "s( )", "s( sin", "s( sqrt"] := by decide +kernel
  obtain ⟨chart, found, holds⟩ := (Option.any_eq_true _ _).mp charts
  obtain ⟨last, affords⟩ := of_decide_eq_true holds
  obtain ⟨proposals, found', fronts⟩ := Option.map_eq_some_iff.mp fronts
  have charted := eq_ok_of_toOption found
  have proposed := eq_ok_of_toOption found'
  refine ⟨chart, proposals, charted, affords, proposed, fronts, fun proposal listed => ?_⟩
  have among := listed
  rw [proposals_of_chart charted proposed] at among
  obtain ⟨offer, offered, proposes⟩ := mem_proposalsOfAll among
  obtain ⟨near, id, path, origin⟩ := origin_of_offered offered proposes
  obtain ⟨_, reread, read, keeps⟩ :=
    proposals_keep rfl charted affords proposed listed origin (by omega)
  exact ⟨offer.position, reread, by omega, read, keeps⟩

end Completer

namespace Sample

def digitLexicon : Lexicon where
  vocabulary := vocabulary [.name "NUM" ⟨1⟩, .literal "1" ⟨2⟩, .literal "a" ⟨3⟩]
  number := some ⟨1⟩

/-- The literal `1`, which is a number where a letter stands behind it, and a letter. -/
def digitCompleter : Completer where
  grammar := (Grammar.compile digitLexicon.vocabulary
    [rule "r" [.plain [.literal "1", .literal "a"]]]).toOption.getD ⟨[], digitLexicon.vocabulary⟩
  lexer := digitLexicon.lexer
  source site _ :=
    match site.element.symbol with
    | .literal "a" _ => .ok [{ content := "a" }]
    | _ => .ok []

theorem digitLexicon_endless : digitLexicon.Endless where
  literals := Lexicon.literalId?_ne_of_spellings (by decide +kernel)
  identifier := by decide
  number := by decide
  quoted := by decide
  blanks := by decide

end Sample

/-- A letter put in behind a literal turns it into a number. -/
theorem Completer.digit_not_kept :
    let completer := Sample.digitCompleter
    Sample.digitLexicon.Endless ∧ ∃ chart proposal position id path,
      completer.chart (.atEnd "1") "r" = .ok chart ∧ completer.Affords (.atEnd "1") chart ∧
      completer.proposals (.atEnd "1") "r" = .ok [proposal] ∧
      Origin completer (.atEnd "1") chart proposal position id path ∧ 1 ≤ position ∧
      completer.lexer.tokenize "1" = .ok chart.tokens ∧
      ∃ reread, completer.lexer.tokenize (proposal.front "1") = .ok reread ∧
        reread.take position ≠ chart.tokens.take position := by
  intro completer
  have charts : (completer.chart (.atEnd "1") "r").toOption.any (fun chart =>
      chart.tokens = [⟨⟨2⟩, "1", 0, .default⟩] ∧ completer.Affords (.atEnd "1") chart) = true := by
    decide +kernel
  have places : (completer.proposals (.atEnd "1") "r").toOption.map
      (·.map fun proposal => (proposal.start, proposal.front "1")) = some [(1, "1a")] := by decide +kernel
  obtain ⟨chart, found, holds⟩ := (Option.any_eq_true _ _).mp charts
  obtain ⟨tokens, affords⟩ := of_decide_eq_true holds
  obtain ⟨proposals, found', places⟩ := Option.map_eq_some_iff.mp places
  obtain ⟨proposal, rfl, place⟩ := List.map_eq_singleton_iff.mp places
  have charted := eq_ok_of_toOption found
  have proposed := eq_ok_of_toOption found'
  obtain ⟨chart', charted', origins⟩ := proposals_eq_ok proposed
  cases charted.symm.trans charted'
  obtain ⟨position, id, path, origin⟩ := origins proposal List.mem_cons_self
  obtain ⟨start, front⟩ := Prod.mk.inj place
  have last := origin.within_tokens charted
  rw [tokens, List.length_singleton] at last
  have behind : 1 ≤ position := by
    by_contra first
    have token : chart.tokens[position]? = some ⟨⟨2⟩, "1", 0, .default⟩ := by
      rw [tokens, show position = 0 by omega]
      rfl
    have other := origin.start_of_token rfl charted token
    rw [start] at other
    cases other
  refine ⟨Sample.digitLexicon_endless, chart, proposal, position, id, path, charted, affords, proposed,
    origin, behind, ?_, [⟨⟨1⟩, "1", 0, .default⟩, ⟨⟨3⟩, "a", 1, .default⟩], ?_, ?_⟩
  · rw [tokens]
    decide +kernel
  · rw [front]
    decide +kernel
  · rw [tokens, show position = 1 by omega]
    decide

end Typeahead
