import Typeahead.Proofs.Chart.Following
import Typeahead.Proofs.Completion.Merging
import Typeahead.Proofs.Lexer.Spacing

/-!
Texts to which the literals are appended that must follow. Each of these is a token of its own there, and
so a text that can go on to a sentence can do so behind them.
-/

namespace Typeahead

namespace Completer

open Text

variable {completer : Completer} {lexicon : Lexicon} {text literal : String} {id : TokenId}

/-- A blank in front of a literal keeps it apart from the text before. -/
theorem seen_spaced_literal (plain : lexicon.Plain)
    (known : lexicon.vocabulary.literalId? literal = some id) :
    lexicon.seen 0 (text ++ " " ++ literal).toList =
      lexicon.seen 0 text.toList ++ [⟨id, literal, (text ++ " ").utf8ByteSize, .default⟩] := by
  have gap : ∀ b ∈ [' '], isBlank b = true := List.forall_mem_singleton.mpr (by decide)
  have apart := plain.solid.seen_spaced gap (List.cons_ne_nil _ _) 0 text.toList literal.toList
  rw [String.toList_append, String.toList_append, List.append_assoc]
  rw [show " ".toList = [' '] from rfl, apart, Lexicon.seen, Lexicon.seen,
    plain.tokensFrom_literal known, ← byteLength_toList, String.toList_append, Nat.zero_add]
  rfl

/-- A literal that needs no blank begins where a token does. -/
theorem breaks_of_needsBlank? (plain : lexicon.Plain) (lexes : completer.lexer = lexicon.lexer)
    (last : completer.needsBlank? (text ++ literal) literal = some false) :
    lexicon.Breaks lexicon.spellings text.toList literal.toList := by
  rw [needsBlank?, lexes, plain.tokenize] at last
  dsimp only at last
  split at last
  · cases last
  · rename_i token ends
    simp only [Option.some.injEq, Bool.or_eq_false_iff, bne_eq_false_iff_eq, String.utf8ByteSize_append,
      Nat.add_sub_cancel] at last
    have listed := (List.mem_filter.mp (List.mem_of_getLast? ends)).1
    rw [String.toList_append] at listed
    exact Lexicon.breaks_of_start listed (by rw [last.1, byteLength_toList, Nat.zero_add])

/-- A literal that is the last token of a text is kept apart from the text before it. -/
theorem seen_glued_literal (plain : lexicon.Plain) (firm : lexicon.Firm lexicon.spellings)
    (lexes : completer.lexer = lexicon.lexer)
    (known : lexicon.vocabulary.literalId? literal = some id)
    (last : completer.needsBlank? (text ++ literal) literal = some false) :
    lexicon.seen 0 (text ++ literal).toList =
      lexicon.seen 0 text.toList ++ [⟨id, literal, text.utf8ByteSize, .default⟩] := by
  rw [String.toList_append, Lexicon.seen, (breaks_of_needsBlank? plain lexes last).tokensFrom_append firm,
    List.filter_append, plain.tokensFrom_literal known, byteLength_toList, Nat.zero_add]
  rfl

/-- Every literal that is appended to a text is one more token of it. -/
theorem appendLiterals_seen (plain : lexicon.Plain) (firm : lexicon.Firm lexicon.spellings)
    (lexes : completer.lexer = lexicon.lexer)
    (same : completer.grammar.vocabulary = lexicon.vocabulary) {literals : List String}
    (known : ∀ literal ∈ literals, (lexicon.vocabulary.literalId? literal).isSome = true)
    {budget : Nat} {grown : String} (found : (completer.appendLiterals literals text budget).1 = some grown) :
    ∃ more : List Token, lexicon.seen 0 grown.toList = lexicon.seen 0 text.toList ++ more ∧
      literals.map lexicon.vocabulary.literalId? = more.map fun token => some token.id := by
  induction literals generalizing text budget with
  | nil =>
    cases found
    exact ⟨[], (List.append_nil _).symm, rfl⟩
  | cons literal literals ih =>
    obtain ⟨id, spelled⟩ := Option.isSome_iff_exists.mp (known literal List.mem_cons_self)
    have others : ∀ other ∈ literals, (lexicon.vocabulary.literalId? other).isSome = true :=
      fun other listed => known other (List.mem_cons_of_mem _ listed)
    have goes_on : ∀ {longer : String} {left : Nat}, (∃ start, lexicon.seen 0 longer.toList =
        lexicon.seen 0 text.toList ++ [⟨id, literal, start, .default⟩]) →
          (completer.appendLiterals literals longer left).1 = some grown →
            ∃ more : List Token, lexicon.seen 0 grown.toList = lexicon.seen 0 text.toList ++ more ∧
              (literal :: literals).map lexicon.vocabulary.literalId? =
                more.map fun token => some token.id := by
      intro longer left step found
      obtain ⟨start, step⟩ := step
      obtain ⟨more, tokens, ids⟩ := ih others found
      refine ⟨⟨id, literal, start, .default⟩ :: more, ?_, ?_⟩
      · rw [tokens, step, List.append_assoc, List.singleton_append]
      · rw [List.map_cons, List.map_cons, ids, spelled]
    simp only [appendLiterals, same, spelled, Option.isSome_some, if_true] at found
    split at found
    · cases found
    · exact goes_on ⟨_, seen_spaced_literal plain spelled⟩ found
    · rename_i last
      cases budget with
      | zero => cases last
      | succ budget => exact goes_on ⟨_, seen_glued_literal plain firm lexes spelled last⟩ found

end Completer

namespace Sample

def edgeLexicon : Lexicon where
  vocabulary := vocabulary [.name "NAME" ⟨1⟩, .name "ARROW" ⟨2⟩, .literal "->" ⟨2⟩, .literal "-" ⟨3⟩,
    .literal ">" ⟨4⟩]
  identifier := some ⟨1⟩

/-- Edges between nodes, `NAME ARROW NAME`, where an arrow is made up of some pieces. -/
def edge (pieces : List Form) : Except (List Defect) Grammar := Grammar.compile edgeLexicon.vocabulary
  [rule "edge" [.plain [.token "NAME", .token "ARROW", .token "NAME"]],
   ⟨"ARROW", true, [.plain pieces]⟩]

def edgeCompleter (pieces : List Form) : Completer where
  grammar := (edge pieces).toOption.getD ⟨[], edgeLexicon.vocabulary⟩
  lexer := edgeLexicon.lexer
  source site _ :=
    match site.element.symbol with
    | .token "NAME" _ => .ok [{ content := "foo" }]
    | _ => .ok []

theorem edgeLexicon_plain : edgeLexicon.Plain where
  unquoted := rfl
  literals := by
    intro text id known
    have listed := edgeLexicon.mem_spellings known
    have all : edgeLexicon.spellings.all (fun spelling => spelling.1 != [] &&
        spelling.1.all (fun c => !Text.isBlank c) && spelling.2 != .eof) = true := by decide +kernel
    have found := List.all_eq_true.mp all _ listed
    simp only [Bool.and_eq_true, bne_iff_ne, List.all_eq_true, Bool.not_eq_true'] at found
    exact ⟨mt String.toList_eq_nil_iff.mpr found.1.1, found.1.2, found.2⟩
  identifier := by decide
  number := by decide
  blanks := by decide

end Sample

/-- The text up to the end of what a proposal puts in. -/
def Proposal.front (proposal : Proposal) (content : String) : String :=
  (Text.before? content proposal.start).getD content ++ proposal.suggestion.content

namespace Completer

variable {completer : Completer} {lexicon : Lexicon} {buffer : Buffer} {rule : String} {chart : Chart}
  {proposals : List Proposal} {proposal : Proposal}

/-- A text can be the front of a sentence: its tokens can be read, and the chart of a rule has an item
behind the last one. -/
def Continues (completer : Completer) (start : Nat) (text : String) : Prop :=
  ∃ tokens, completer.lexer.tokenize text = .ok tokens ∧
    0 < ((Chart.parse completer.grammar start tokens).column tokens.length).nodes.size

/-- A proposal for an element that expects input puts in one token, which the element accepts. -/
structure Fulfils (completer : Completer) (content : String) (tokens : List Token)
    (proposal : Proposal) : Prop where
  innermost : proposal.site.depth = 0
  token : ∃ given token, completer.lexer.tokenize (proposal.front content) = .ok (given ++ [token]) ∧
    given.map Token.id = (tokens.map Token.id).take proposal.site.level.node.position ∧
    proposal.site.element.symbol.accepts token.id = true

theorem grown?_continues {decls : List RuleDecl}
    (compiled : Grammar.compile lexicon.vocabulary decls = .ok completer.grammar)
    (lexes : completer.lexer = lexicon.lexer) (plain : lexicon.Plain)
    (firm : lexicon.Firm lexicon.spellings) (whole : completer.grammar.WholeTokens)
    (charted : completer.chart buffer rule = .ok chart)
    (proposed : completer.proposals buffer rule = .ok proposals) (listed : proposal ∈ proposals)
    (fulfils : completer.Fulfils buffer.content chart.tokens proposal)
    (known : ∀ literal ∈ proposal.site.mandatoryAfter,
      (lexicon.vocabulary.literalId? literal).isSome = true)
    {result : String} (grown : completer.grown? buffer.content proposal = some result) :
    ∃ text, result = text ++ (Text.after? buffer.content proposal.stop).getD "" ∧
      completer.Continues chart.start text := by
  obtain ⟨same, resolved⟩ := Grammar.compile_resolved compiled
  obtain ⟨_, charted', origins⟩ := proposals_eq_ok proposed
  rw [charted] at charted'
  cases charted'
  obtain ⟨position, id, path, origin⟩ := origins proposal listed
  obtain ⟨start, tokens, _, _, _, rfl⟩ := chart_eq_ok charted
  obtain ⟨siteGrammar, above, depth, here⟩ := Site.mem_chain origin.site
  obtain ⟨ascent, _⟩ := Chart.paths_ascend origin.climbed
  -- The site expects input itself, so that its levels are the whole path.
  rw [fulfils.innermost, Nat.zero_add] at depth
  rw [← depth, List.drop_zero] at here
  rw [here] at ascent
  obtain ⟨given, token, read, front, accepted⟩ := fulfils.token
  obtain ⟨text, appended, rfl⟩ := Option.map_eq_some_iff.mp grown
  obtain ⟨more, seen, literals⟩ := appendLiterals_seen plain firm lexes same known appended
  rw [lexes, plain.tokenize] at read
  rw [show _ ++ proposal.suggestion.content = proposal.front buffer.content from rfl,
    Except.ok.inj read] at seen
  have split : (lexicon.seen 0 text.toList).map Token.id =
      (tokens.map Token.id).take proposal.site.level.node.position ++ token.id :: more.map Token.id := by
    rw [seen, List.append_assoc, List.map_append, front]
    rfl
  have ids : (Site.literalsBehind completer.grammar (proposal.site.level :: proposal.site.enclosing)).map
      completer.grammar.vocabulary.literalId? = more.map fun token => some token.id := by
    rw [same, ← literals, Site.mandatoryAfter, siteGrammar]
  exact ⟨text, rfl, lexicon.seen 0 text.toList, by rw [lexes, plain.tokenize],
    ascent.goes_on (by rw [same]; exact resolved) whole split accepted ids⟩

/-- Literals are appended in such a way that a text that can go on to a sentence still can behind them.
The kinds of tokens that are seen through must be single literals, all the literals must be known, and none
may end in a digit if there are numbers. -/
theorem complete_continues {decls : List RuleDecl}
    (compiled : Grammar.compile lexicon.vocabulary decls = .ok completer.grammar)
    (lexes : completer.lexer = lexicon.lexer) (plain : lexicon.Plain)
    (firm : lexicon.Firm lexicon.spellings) (whole : completer.grammar.WholeTokens)
    (charted : completer.chart buffer rule = .ok chart) {edits : List Edit}
    (answered : completer.complete buffer rule = .ok edits) {edit : Edit} (listed : edit ∈ edits) :
    ∃ proposals text first, completer.proposals buffer rule = .ok proposals ∧
      proposals.find? (fun proposal => proposal.result buffer.content = text) = some first ∧
      Carries first edit ∧
      ((edit.apply buffer).content = text ∨
        ∀ proposal ∈ proposals, proposal.result buffer.content = text →
          completer.Fulfils buffer.content chart.tokens proposal →
          (∀ literal ∈ proposal.site.mandatoryAfter,
            (lexicon.vocabulary.literalId? literal).isSome = true) →
          ∃ front, (edit.apply buffer).content =
              front ++ (Text.after? buffer.content proposal.stop).getD "" ∧
            completer.Continues chart.start front) := by
  obtain ⟨proposals, budget, proposed, rfl⟩ := complete_eq_ok answered
  have fits := proposals_fit (lexes ▸ lexicon.lexer_inBounds) proposed
  obtain ⟨group, grouped, editsFor⟩ := editsFor_of_mem fits listed
  refine ⟨proposals, group.text, group.first, proposed, ProposalGroup.find?_text grouped,
    ⟨editsFor.start, editsFor.stop, editsFor.description, editsFor.text⟩, ?_⟩
  refine editsFor.result.imp_right fun agreed proposal among leads fulfils known => ?_
  have grown := agreed proposal ((ProposalGroup.mem_members grouped).mpr ⟨among, leads⟩)
  exact grown?_continues compiled lexes plain firm whole charted proposed among fulfils known grown

theorem complete_continues_edge :
    let completer := Sample.edgeCompleter [.literal "->"]
    completer.complete (.atEnd "fo") "edge" = .ok [⟨0, 2, "foo->", 5, none⟩] ∧
      completer.Continues 0 "foo->" := by
  intro completer
  have answered : completer.complete (.atEnd "fo") "edge" = .ok [⟨0, 2, "foo->", 5, none⟩] := by
    decide +kernel
  have compiled : Sample.edge [.literal "->"] = .ok completer.grammar := by decide +kernel
  have arrow : ∀ rule ∈ completer.grammar.rules, rule.origin = .lexer → rule.name = "ARROW" := by
    decide +kernel
  have whole : completer.grammar.WholeTokens := by
    intro rule listed lexical id named
    rw [arrow rule listed lexical] at named ⊢
    cases (by decide +kernel : completer.grammar.vocabulary.nameId? "ARROW" = some ⟨2⟩).symm.trans named
    exact .inr ⟨"->", by decide +kernel, by decide +kernel⟩
  have begins : (completer.chart (.atEnd "fo") "edge").toOption.map Chart.start = some 0 := by
    decide +kernel
  obtain ⟨chart, found, start⟩ := Option.map_eq_some_iff.mp begins
  obtain ⟨proposals, text, first, proposed, leads, _, result⟩ := complete_continues compiled rfl
    Sample.edgeLexicon_plain (.inl rfl) whole (eq_ok_of_toOption found) answered List.mem_cons_self
  have shape : ∀ proposal ∈ ((completer.proposals (.atEnd "fo") "edge").toOption.getD []),
      proposal.site.depth = 0 ∧ proposal.site.level.node.position = 0 ∧
        proposal.site.element.symbol = .token "NAME" ⟨1⟩ ∧ proposal.start = 0 ∧ proposal.stop = 2 ∧
        proposal.suggestion.content = "foo" ∧ proposal.site.mandatoryAfter = ["->"] := by
    decide +kernel
  rw [proposed] at shape
  have among := List.mem_of_find?_eq_some leads
  obtain ⟨innermost, position, symbol, from', to', content, literals⟩ := shape first among
  have leads : first.result (Buffer.atEnd "fo").content = text := by
    simpa using List.find?_some leads
  rcases result with unchanged | agreed
  · rw [← leads, Proposal.result, from', to', content] at unchanged
    exact absurd unchanged (by decide +kernel)
  · have fulfils : completer.Fulfils "fo" chart.tokens first := by
      refine ⟨innermost, [], ⟨⟨1⟩, "foo", 0, .default⟩, ?_, ?_, ?_⟩
      · rw [Proposal.front, from', content]
        decide +kernel
      · rw [position]
        rfl
      · rw [symbol]
        decide
    have known : ∀ literal ∈ first.site.mandatoryAfter,
        (Sample.edgeLexicon.vocabulary.literalId? literal).isSome = true := by
      rw [literals]
      decide +kernel
    obtain ⟨front, whole, continues⟩ := agreed first among leads fulfils known
    have none : (Text.after? (Buffer.atEnd "fo").content first.stop).getD "" = "" := by
      rw [to']
      decide +kernel
    rw [none, String.append_empty] at whole
    rw [start, ← whole] at continues
    exact ⟨answered, continues⟩

/-- Where an arrow is made up of two literals, a blank is put between them, and the text cannot go on. It
could if they stood together. -/
theorem edge_not_continues :
    let completer := Sample.edgeCompleter [.literal "-", .literal ">"]
    completer.complete (.atEnd "fo") "edge" = .ok [⟨0, 2, "foo- >", 6, none⟩] ∧
      completer.lexer.tokenize "foo" = .ok [⟨⟨1⟩, "foo", 0, .default⟩] ∧
      completer.lexer.tokenize "->" = .ok [⟨⟨2⟩, "->", 0, .default⟩] ∧
      completer.Continues 0 "foo->" ∧ ¬ completer.Continues 0 "foo- >" := by
  intro completer
  have joined : completer.lexer.tokenize "foo->" =
      .ok [⟨⟨1⟩, "foo", 0, .default⟩, ⟨⟨2⟩, "->", 3, .default⟩] := by decide +kernel
  have split : completer.lexer.tokenize "foo- >" =
      .ok [⟨⟨1⟩, "foo", 0, .default⟩, ⟨⟨3⟩, "-", 3, .default⟩, ⟨⟨4⟩, ">", 5, .default⟩] := by
    decide +kernel
  refine ⟨by decide +kernel, by decide +kernel, by decide +kernel, ⟨_, joined, by decide +kernel⟩, ?_⟩
  rintro ⟨tokens, read, alive⟩
  rw [split] at read
  cases read
  exact absurd alive (by decide +kernel)

end Completer

end Typeahead
