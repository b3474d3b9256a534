import Typeahead.Proofs.Completion.Range
import Typeahead.Proofs.Lexer.Resumption

/-!
Where proposals begin, with the tokens of a lexicon: at the caret, or at the last token before it. Nothing
of an earlier token is replaced, and what the source is asked about is all that stands between there and
the caret.
-/

namespace Typeahead

open Text

namespace Token

theorem Ascending.stop_le_stopBefore {start place position : Nat} {tokens : List Token} {token : Token}
    (ascending : Ascending tokens) (inside : tokens[place]? = some token) (below : place < position)
    (within : position ≤ tokens.length) : token.stop ≤ stopBefore start tokens position := by
  cases position with
  | zero => cases below
  | succ before =>
    have last : tokens[before]? = some tokens[before] := List.getElem?_eq_getElem within
    rw [stopBefore, last, Option.map_some, Option.getD_some]
    rcases Nat.lt_or_eq_of_le (Nat.le_of_lt_succ below) with earlier | rfl
    · obtain ⟨here, rfl⟩ := List.getElem?_eq_some_iff.mp inside
      have apart := List.pairwise_iff_getElem.mp ascending.ordered place before here within earlier
      have wide := ascending.wide tokens[before] (List.getElem_mem within)
      omega
    · rw [last] at inside
      cases inside
      exact Nat.le_refl _

end Token

namespace Completer

variable {completer : Completer} {buffer : Buffer} {rule : String} {chart : Chart} {lexicon : Lexicon}
  {proposal : Proposal} {position : Nat} {id : NodeId} {path : Path} {tokens : List Token}

theorem takeTokens_eq_ok {limit left : Nat} {answers : List Answer}
    (taken : takeTokens limit left answers = .ok tokens) : answers = tokens.map .ok := by
  induction answers generalizing left tokens with
  | nil =>
    cases left <;> cases taken <;> rfl
  | cons answer answers ih =>
    cases left with
    | zero => cases taken
    | succ left =>
      cases answer with
      | error failure => cases taken
      | ok token =>
        obtain ⟨rest, others, rfl⟩ := map_eq_ok_iff.mp taken
        rw [List.map_cons, ih others]

/-- The chart is made for the tokens of the text before the caret. -/
theorem chart_tokens (lexes : completer.lexer = lexicon.lexer)
    (charted : completer.chart buffer rule = .ok chart) :
    Token.shown (lexicon.tokens buffer.beforeCaret) = chart.tokens := by
  obtain ⟨start, tokens, _, _, lexed, rfl⟩ := chart_eq_ok charted
  rw [prefixTokens, lexes, lexicon.items_eq] at lexed
  have same := takeTokens_eq_ok lexed
  exact List.map_injective_iff.mpr (fun _ _ equal => Except.ok.inj equal) same

theorem chart_ascending (lexes : completer.lexer = lexicon.lexer)
    (charted : completer.chart buffer rule = .ok chart) : Token.Ascending chart.tokens := by
  rw [← chart_tokens lexes charted]
  exact lexicon.shown_ascending _

/-- What is typed at a position is the text behind the token before it, without the blanks in front. -/
theorem typedAt_of_cut (checked : checkCaret buffer = .ok ()) {left rest : String}
    (whole : buffer.beforeCaret = left ++ rest)
    (cut : left.utf8ByteSize = Token.stopBefore 0 tokens position) (within : position ≤ tokens.length) :
    typedAt buffer tokens position = Text.trimStart rest := by
  cases position with
  | zero =>
    have empty := String.utf8ByteSize_eq_zero_iff.mp cut
    rw [typedAt, whole, empty, String.empty_append]
  | succ before =>
    obtain ⟨after, content, caret⟩ := checkCaret_eq_ok checked
    have last : tokens[before]? = some tokens[before] := List.getElem?_eq_getElem within
    rw [Token.stopBefore, last, Option.map_some, Option.getD_some] at cut
    have between := between?_append left rest after
    rw [← whole, ← content, cut, caret] at between
    simp only [typedAt, last, Option.bind_some, between, Option.getD_some]

theorem Origin.within_tokens (charted : completer.chart buffer rule = .ok chart)
    (origin : Origin completer buffer chart proposal position id path) :
    position ≤ chart.tokens.length := by
  obtain ⟨start, tokens, _, _, _, rfl⟩ := chart_eq_ok charted
  have within := origin.within
  rw [Chart.positions, (Chart.parse_charted completer.grammar start tokens).2] at within
  exact within

/-- A proposal replaces what stands behind the token before its position, without the blanks in front. The
tokens from that position on are those of this text. -/
theorem Origin.cut (lexes : completer.lexer = lexicon.lexer)
    (charted : completer.chart buffer rule = .ok chart)
    (origin : Origin completer buffer chart proposal position id path) :
    ∃ left rest : List Char, buffer.beforeCaret.toList = left ++ rest ∧
      byteLength left = Token.stopBefore 0 chart.tokens position ∧
      chart.tokens.drop position =
        Token.shown (lexicon.tokensFrom lexicon.spellings (byteLength left) rest) ∧
      proposal.start = byteLength (left ++ rest.takeWhile isBlank) ∧
      typedAt buffer chart.tokens position = String.ofList (rest.dropWhile isBlank) := by
  obtain ⟨_, _, _, checked, _, _⟩ := chart_eq_ok charted
  obtain ⟨_, _, caret⟩ := checkCaret_eq_ok checked
  have within := origin.within_tokens charted
  obtain ⟨left, rest, whole, stops, others⟩ := Lexicon.shown_drop (chart_tokens lexes charted) within
  rw [Nat.zero_add] at stops others
  have split : buffer.beforeCaret = String.ofList left ++ String.ofList rest :=
    String.toList_injective (by simpa using whole)
  have typed : typedAt buffer chart.tokens position = String.ofList (rest.dropWhile isBlank) := by
    rw [typedAt_of_cut checked split (by rw [utf8ByteSize_ofList, stops]) within, trimStart, dropBlank,
      String.toList_ofList]
  refine ⟨left, rest, whole, stops, others, ?_, typed⟩
  obtain ⟨offer, proposes, _, asked, _⟩ := origin.proposes
  have parts := congrArg byteLength (List.takeWhile_append_dropWhile (p := isBlank) (l := rest))
  rw [byteLength_append] at parts
  rw [proposes.start, asked, typed, ← caret, split, String.utf8ByteSize_append, utf8ByteSize_ofList,
    utf8ByteSize_ofList, utf8ByteSize_ofList, byteLength_append]
  omega

theorem Origin.stopBefore_le (lexes : completer.lexer = lexicon.lexer)
    (charted : completer.chart buffer rule = .ok chart)
    (origin : Origin completer buffer chart proposal position id path) :
    Token.stopBefore 0 chart.tokens position ≤ proposal.start := by
  obtain ⟨left, rest, _, stops, _, start, _⟩ := origin.cut lexes charted
  rw [start, byteLength_append, stops]
  exact Nat.le_add_right _ _

theorem Origin.start_of_token (lexes : completer.lexer = lexicon.lexer)
    (charted : completer.chart buffer rule = .ok chart)
    (origin : Origin completer buffer chart proposal position id path) {token : Token}
    (inside : chart.tokens[position]? = some token) : proposal.start = token.start := by
  obtain ⟨left, rest, _, _, others, start, _⟩ := origin.cut lexes charted
  obtain ⟨here, rfl⟩ := List.getElem?_eq_some_iff.mp inside
  rw [List.drop_eq_getElem_cons here] at others
  obtain ⟨blanks, behind, rfl, all, ⟨c, more, text, dark⟩, place, _⟩ := Lexicon.shown_eq_cons others.symm
  have gap : (blanks ++ (chart.tokens[position].text.toList ++ behind)).takeWhile isBlank = blanks := by
    rw [text, List.takeWhile_append_of_pos all, List.cons_append, List.takeWhile_cons_of_neg (by simp [dark]),
      List.append_nil]
  rw [start, gap, place, byteLength_append]

theorem Origin.start_at_end (endless : lexicon.Endless) (lexes : completer.lexer = lexicon.lexer)
    (charted : completer.chart buffer rule = .ok chart)
    (origin : Origin completer buffer chart proposal position id path)
    (ended : position = chart.tokens.length) : proposal.start = buffer.caret := by
  obtain ⟨_, _, _, checked, _, _⟩ := chart_eq_ok charted
  obtain ⟨_, _, caret⟩ := checkCaret_eq_ok checked
  obtain ⟨left, rest, whole, _, others, start, _⟩ := origin.cut lexes charted
  rw [ended, List.drop_length] at others
  have blanks := endless.isBlank_of_shown_eq_nil others.symm
  rw [start, List.takeWhile_eq_self_iff.mpr blanks, ← whole, byteLength_toList, caret]

/-- A proposal stems from one position only. -/
theorem Origin.position_le (lexes : completer.lexer = lexicon.lexer)
    (charted : completer.chart buffer rule = .ok chart) {position' : Nat} {id' : NodeId} {path' : Path}
    (origin : Origin completer buffer chart proposal position id path)
    (other : Origin completer buffer chart proposal position' id' path') : position ≤ position' := by
  by_contra beyond
  have below : position' < position := Nat.lt_of_not_le beyond
  have within := origin.within_tokens charted
  have inside : position' < chart.tokens.length := by omega
  have token : chart.tokens[position']? = some chart.tokens[position'] := List.getElem?_eq_getElem inside
  have start := other.start_of_token lexes charted token
  have stop : _ ≤ Token.stopBefore 0 chart.tokens position :=
    (chart_ascending lexes charted).stop_le_stopBefore token below within
  have wide := (chart_ascending lexes charted).wide _ (List.getElem_mem inside)
  have behind := origin.stopBefore_le lexes charted
  omega

theorem Origin.position_eq (lexes : completer.lexer = lexicon.lexer)
    (charted : completer.chart buffer rule = .ok chart) {offer : Offer}
    (offered : offer ∈ (completer.inquiries buffer chart).filterMap (·.offer? completer.source))
    (proposes : Proposes completer buffer offer proposal)
    (origin : Origin completer buffer chart proposal position id path) : offer.position = position := by
  obtain ⟨_, id', path', actual⟩ := origin_of_offered offered proposes
  exact Nat.le_antisymm (actual.position_le lexes charted origin) (origin.position_le lexes charted actual)

/-- What a proposal that stems from a position replaces in front of the caret. -/
structure Replaces (completer : Completer) (buffer : Buffer) (rule : String) (chart : Chart)
    (proposal : Proposal) (position : Nat) : Prop where
  begins : position = chart.positions - 1 ∧ proposal.start = buffer.caret ∨
    position + 1 = chart.positions - 1 ∧
      chart.tokens.getLast?.map Token.start = some proposal.start
  asked : ∃ typed suggestions,
    Text.between? buffer.content proposal.start buffer.caret = some typed ∧
      (proposal.site, typed) ∈ completer.questions buffer rule ∧
      completer.source proposal.site typed = .ok suggestions ∧ proposal.suggestion ∈ suggestions
  spared : ∀ token ∈ chart.tokens.take position, token.stop ≤ proposal.start

theorem Origin.replaces (endless : lexicon.Endless) (lexes : completer.lexer = lexicon.lexer)
    (charted : completer.chart buffer rule = .ok chart) {offer : Offer}
    (offered : offer ∈ (completer.inquiries buffer chart).filterMap (·.offer? completer.source))
    (proposes : Proposes completer buffer offer proposal)
    (origin : Origin completer buffer chart proposal position id path) :
    Replaces completer buffer rule chart proposal position := by
  obtain ⟨near, _⟩ := origin_of_offered offered proposes
  rw [origin.position_eq lexes charted offered proposes] at near
  have within := origin.within_tokens charted
  obtain ⟨start, tokens, _, checked, _, chartEq⟩ := chart_eq_ok charted
  have last : chart.positions - 1 = chart.tokens.length := by
    rw [chartEq, Chart.positions, (Chart.parse_charted completer.grammar start tokens).2]
    rfl
  refine ⟨?_, ?_, ?_⟩
  · rcases near with ended | before
    · exact .inl ⟨ended, origin.start_at_end endless lexes charted (ended.trans last)⟩
    · right
      have inside : position < chart.tokens.length := by omega
      refine ⟨before, ?_⟩
      rw [origin.start_of_token lexes charted (List.getElem?_eq_getElem inside), List.getLast?_eq_getElem?,
        ← last, ← before, Nat.add_sub_cancel, List.getElem?_eq_getElem inside, Option.map_some]
  · obtain ⟨inquiry, _, answered⟩ := List.mem_filterMap.mp offered
    refine ⟨offer.typed, offer.suggestions, between?_of_offered charted offered proposes, ?_, ?_,
      proposes.suggested⟩
    · rw [proposes.site]
      exact mem_questions charted offered
    · rw [proposes.site]
      exact (Inquiry.offer?_eq_some answered).2.2.2
  · intro token listed
    obtain ⟨place, inside, rfl⟩ := List.mem_iff_getElem.mp listed
    rw [List.length_take] at inside
    have below : place < position := by omega
    have here : chart.tokens[place]? = some (chart.tokens.take position)[place] := by
      rw [List.getElem_take, List.getElem?_eq_getElem]
    have stops : _ ≤ Token.stopBefore 0 chart.tokens position :=
      (chart_ascending lexes charted).stop_le_stopBefore here below within
    exact Nat.le_trans stops (origin.stopBefore_le lexes charted)

/-- A proposal replaces nothing before the caret, or exactly what stands from the last token on: nothing if
it stems from the last position of the chart, and else it stems from the position before that. -/
theorem proposals_replace (endless : lexicon.Endless) (lexes : completer.lexer = lexicon.lexer)
    {proposals : List Proposal} (proposed : completer.proposals buffer rule = .ok proposals) :
    ∃ chart, completer.chart buffer rule = .ok chart ∧
      completer.lexer.tokenize buffer.beforeCaret = .ok chart.tokens ∧
      ∀ proposal ∈ proposals,
        (∃ position id path, Origin completer buffer chart proposal position id path) ∧
        ∀ position id path, Origin completer buffer chart proposal position id path →
          Replaces completer buffer rule chart proposal position := by
  obtain ⟨chart, charted, origins⟩ := proposals_eq_ok proposed
  refine ⟨chart, charted, ?_, fun proposal listed => ⟨origins proposal listed, ?_⟩⟩
  · rw [lexes, lexicon.tokenize_eq, chart_tokens lexes charted]
  · intro position id path origin
    rw [proposals_of_chart charted proposed] at listed
    obtain ⟨offer, offered, proposes⟩ := mem_proposalsOfAll listed
    exact origin.replaces endless lexes charted offered proposes

end Completer

namespace Sample

def callLexicon : Lexicon := { vocabulary := callVocabulary, identifier := some ⟨1⟩ }

theorem callLexicon_endless : callLexicon.Endless where
  literals := Lexicon.literalId?_ne_of_spellings (by decide +kernel)
  identifier := by decide
  number := by decide
  quoted := by decide
  blanks := by decide

end Sample

/-- What goes on behind the last token is put in at the caret, behind the blank. The blank before that token
stays too. -/
theorem Completer.proposals_replace_call :
    let completer := Sample.callCompleter
    ∃ chart proposals, completer.chart (.atEnd "s( b ") "call" = .ok chart ∧
      completer.proposals (.atEnd "s( b ") "call" = .ok proposals ∧
      proposals.map (fun proposal => (proposal.start, proposal.suggestion.content)) =
        [(5, ")"), (5, ","), (3, ")"), (3, "sin"), (3, "sqrt")] ∧
      ∀ proposal ∈ proposals, ∃ position,
        Replaces completer (.atEnd "s( b ") "call" chart proposal position := by
  intro completer
  have found : (completer.proposals (.atEnd "s( b ") "call").toOption.map
      (·.map fun proposal => (proposal.start, proposal.suggestion.content)) =
        some [(5, ")"), (5, ","), (3, ")"), (3, "sin"), (3, "sqrt")] := by
    decide +kernel
  obtain ⟨proposals, found, starts⟩ := Option.map_eq_some_iff.mp found
  have proposed := eq_ok_of_toOption found
  obtain ⟨chart, charted, _, replaces⟩ :=
    Completer.proposals_replace Sample.callLexicon_endless rfl proposed
  refine ⟨chart, proposals, charted, proposed, starts, fun proposal listed => ?_⟩
  obtain ⟨⟨position, id, path, origin⟩, replaces⟩ := replaces proposal listed
  exact ⟨position, replaces position id path origin⟩

end Typeahead
