import Typeahead.Proofs.Chart.Extent
import Typeahead.Proofs.Completion.Budget
import Typeahead.Proofs.Completion.Replacing
import Typeahead.Proofs.Lexer.Cutting

/-!
How far behind the caret proposals replace text: as far as their elements match the tokens of the text from where
they begin, or not at all. No token is replaced in part.
-/

namespace Typeahead

open Text

namespace Completer

variable {completer : Completer} {buffer : Buffer} {rule : String} {chart : Chart} {lexicon : Lexicon}
  {proposal : Proposal} {content : String} {element : Element} {start stop position count : Nat}
  {tokens : List Token} {id : NodeId} {path : Path}

/-- From `start` to `stop` there are the first tokens of the text behind `start`, as many as the element takes of
those that are looked at. -/
structure Spans (completer : Completer) (content : String) (element : Element) (start stop : Nat)
    (tokens : List Token) (count : Nat) : Prop where
  read : ∃ rest, after? content start = some rest ∧ completer.lexer.tokenize rest = .ok tokens
  begins : tokens.head?.map Token.start = some 0
  nonempty : 1 ≤ count
  limited : count ≤ completer.limits.maxReach
  takes : element.reach completer.grammar (tokens.take completer.limits.maxReach) = count
  ends : tokens[count - 1]?.map (start + ·.stop) = some stop

/-- The tokens that are looked at to see how far an element reaches. -/
theorem reachEnd?_eq (lexes : completer.lexer = lexicon.lexer) (content : String) (start : Nat)
    (element : Element) : completer.reachEnd? content start element =
      (after? content start).bind fun rest =>
        let tokens := (Token.shown (lexicon.tokens rest)).take completer.limits.maxReach
        tokens.head?.bind fun first => if first.start = 0 then
          (tokens.take (element.reach completer.grammar tokens)).getLast?.map (start + ·.stop) else none := by
  rw [reachEnd?, Option.bind_eq_bind]
  refine congrArg (Option.bind _) (funext fun rest => ?_)
  rw [lexes, lexicon.items_eq]
  simp only [Except.toOption, Option.bind_eq_bind, Option.bind_some, ← List.map_take,
    Lexicon.allTokens_map_ok, Option.pure_def, Option.map_eq_bind, Function.comp_def]

theorem getLast?_take_of_le {count : Nat} (within : count ≤ tokens.length) :
    (tokens.take count).getLast? = if count = 0 then none else tokens[count - 1]? := by
  rw [List.getLast?_take]
  split
  · rfl
  · rw [List.getElem?_eq_getElem (by omega), Option.some_or]

theorem reachEnd?_eq_some_iff (lexes : completer.lexer = lexicon.lexer) :
    completer.reachEnd? content start element = some stop ↔
      ∃ tokens count, Spans completer content element start stop tokens count := by
  rw [reachEnd?_eq lexes]
  constructor
  · intro found
    obtain ⟨rest, cut, found⟩ := Option.bind_eq_some_iff.mp found
    obtain ⟨first, head, found⟩ := Option.bind_eq_some_iff.mp found
    have within := element.reach_le completer.grammar
      ((Token.shown (lexicon.tokens rest)).take completer.limits.maxReach)
    rw [getLast?_take_of_le within] at found
    split at found
    · rename_i here
      split at found
      · cases found
      · rename_i takes
        have few := Nat.le_trans within (List.length_take_le ..)
        rw [List.getElem?_take_of_lt (by omega)] at found
        rw [List.head?_take] at head
        split at head
        · cases head
        · refine ⟨_, _, ⟨rest, cut, by rw [lexes, lexicon.tokenize_eq]⟩, ?_, Nat.one_le_iff_ne_zero.mpr takes,
            few, rfl, found⟩
          rw [head, Option.map_some, here]
    · cases found
  · rintro ⟨tokens, count, ⟨rest, cut, read⟩, begins, nonempty, limited, rfl, ends⟩
    rw [lexes, lexicon.tokenize_eq] at read
    cases read
    have within := element.reach_le completer.grammar
      ((Token.shown (lexicon.tokens rest)).take completer.limits.maxReach)
    obtain ⟨first, head, here⟩ := Option.map_eq_some_iff.mp begins
    rw [cut, Option.bind_some]
    dsimp only
    rw [List.head?_take, if_neg (by omega), head, Option.bind_some, if_pos here, getLast?_take_of_le within,
      if_neg (by omega), List.getElem?_take_of_lt (by omega)]
    exact ends

theorem Spans.matched (spans : Spans completer content element start stop tokens count) :
    (tokens.take count).map Token.id ∈ element.language completer.grammar.language := by
  obtain ⟨_, _, nonempty, limited, rfl, _⟩ := spans
  have looked := tokens.take_take
    (i := element.reach completer.grammar (tokens.take completer.limits.maxReach))
    (j := completer.limits.maxReach)
  rw [Nat.min_eq_left limited] at looked
  rw [← looked]
  exact element.reach_matched (Nat.ne_of_gt nonempty)

theorem Spans.tokens_eq (spans : Spans completer content element start stop tokens count)
    (lexes : completer.lexer = lexicon.lexer) : ∃ rest, after? content start = some rest ∧
      tokens = Token.shown (lexicon.tokens rest) := by
  obtain ⟨rest, cut, read⟩ := spans.read
  rw [lexes, lexicon.tokenize_eq] at read
  exact ⟨rest, cut, (Except.ok.inj read).symm⟩

theorem Spans.ascending (spans : Spans completer content element start stop tokens count)
    (lexes : completer.lexer = lexicon.lexer) : Token.Ascending tokens := by
  obtain ⟨rest, _, rfl⟩ := spans.tokens_eq lexes
  exact lexicon.shown_ascending rest

theorem Spans.clear (spans : Spans completer content element start stop tokens count)
    (lexes : completer.lexer = lexicon.lexer) : ∃ rest, after? content start = some rest ∧
      Token.Clear (lexicon.tokens rest) (stop - start) := by
  obtain ⟨rest, cut, rfl⟩ := spans.tokens_eq lexes
  obtain ⟨last, listed, rfl⟩ := Option.map_eq_some_iff.mp spans.ends
  refine ⟨rest, cut, ?_⟩
  rw [Nat.add_sub_cancel_left]
  exact (lexicon.tokens_tile rest).ascending.clear_stop
    ((Token.shown_sublist _).mem (List.mem_of_getElem? listed))

/-- A proposal begins where no token of the text before the caret is cut. -/
theorem Origin.clear_start (lexes : completer.lexer = lexicon.lexer)
    (charted : completer.chart buffer rule = .ok chart)
    (origin : Origin completer buffer chart proposal position id path) :
    Token.Clear (lexicon.tokens buffer.beforeCaret) proposal.start := by
  obtain ⟨left, rest, whole, stops, _, place, _⟩ := origin.cut lexes charted
  have within := origin.within_tokens charted
  rw [← chart_tokens lexes charted] at within stops
  have clear := (lexicon.tokens_tile buffer.beforeCaret).ascending.clear_stopBefore
    (fun _ _ => Nat.zero_le _) within
  rw [← stops, ← Nat.zero_add (byteLength left)] at clear
  rw [place, ← Nat.zero_add (byteLength _)]
  rw [Lexicon.tokens, whole] at clear ⊢
  exact Lexicon.clear_behind_blanks clear

theorem stop_of_affords (charted : completer.chart buffer rule = .ok chart)
    (affords : completer.Affords buffer chart) {proposals : List Proposal}
    (proposed : completer.proposals buffer rule = .ok proposals) (listed : proposal ∈ proposals) :
    proposal.stop = max ((completer.reachEnd? buffer.content proposal.start proposal.site.element).getD
      buffer.caret) buffer.caret := by
  rw [proposals_eq, charted] at proposed
  cases proposed
  dsimp only at listed
  rw [proposalsOfAll_of_le affords] at listed
  obtain ⟨offer, _, listed⟩ := List.mem_flatMap.mp listed
  exact stop_of_mem_proposalsOf listed

/-- A proposal replaces nothing behind the caret, or as many tokens of the text from its start on as its element
takes of those that are looked at, and matches. Neither end cuts a token: the start none of the text before the
caret, and the stop, if it lies behind the caret, none of the text from the start on. As long as the budget is not
used up, a proposal stops where its element does, unless that is before the caret. -/
theorem proposals_overreach (lexes : completer.lexer = lexicon.lexer) {proposals : List Proposal}
    (proposed : completer.proposals buffer rule = .ok proposals) : ∀ proposal ∈ proposals,
      Token.Clear (lexicon.tokens buffer.beforeCaret) proposal.start ∧
      (proposal.stop = buffer.caret ∨ buffer.caret < proposal.stop ∧
        ∃ tokens count,
          Spans completer buffer.content proposal.site.element proposal.start proposal.stop tokens count ∧
          (tokens.take count).map Token.id ∈ proposal.site.element.language completer.grammar.language ∧
          ∃ rest, after? buffer.content proposal.start = some rest ∧
            Token.Clear (lexicon.tokens rest) (proposal.stop - proposal.start)) ∧
      ∀ chart, completer.chart buffer rule = .ok chart → completer.Affords buffer chart →
        ∀ beyond tokens count,
          Spans completer buffer.content proposal.site.element proposal.start beyond tokens count →
          proposal.stop = max beyond buffer.caret := by
  intro proposal listed
  obtain ⟨chart, charted, origins⟩ := proposals_eq_ok proposed
  obtain ⟨position, id, path, origin⟩ := origins proposal listed
  refine ⟨origin.clear_start lexes charted, ?_, fun chart charted affords beyond tokens count spans => ?_⟩
  · obtain ⟨offer, proposes, _⟩ := origin.proposes
    rcases proposes.stop with atCaret | ⟨reach, furthest, reached⟩
    · exact .inl atCaret
    rcases Nat.lt_or_ge buffer.caret reach with beyond | within
    · rw [Nat.max_eq_left (Nat.le_of_lt beyond)] at furthest
      rw [← furthest, ← proposes.site] at reached
      obtain ⟨tokens, count, spans⟩ := (reachEnd?_eq_some_iff lexes).mp reached
      exact .inr ⟨furthest ▸ beyond, tokens, count, spans, spans.matched, spans.clear lexes⟩
    · exact .inl (furthest.trans (Nat.max_eq_right within))
  · have reached := (reachEnd?_eq_some_iff lexes).mpr ⟨tokens, count, spans⟩
    rw [stop_of_affords charted affords proposed listed, reached, Option.getD_some]

end Completer

namespace Sample

/-- Knows two arguments, and nothing else. -/
def arguments : Source := fun site _ =>
  match site.element.symbol with
  | .rule _ "args" => .ok [{ content := "x, y" }]
  | _ => .ok []

end Sample

/-- All arguments behind the caret give way, and what stands behind the blank stays. -/
theorem Completer.proposals_overreach_call :
    let completer := { Sample.callCompleter with source := Sample.arguments }
    ∃ proposal, completer.proposals ⟨"f(a,b )", 2⟩ "call" = .ok [proposal] ∧
      proposal.start = 2 ∧ proposal.stop = 5 ∧
      ∃ tokens count, Spans completer "f(a,b )" proposal.site.element 2 5 tokens count ∧
        (tokens.take count).map Token.id ∈
          proposal.site.element.language completer.grammar.language := by
  intro completer
  have places : (completer.proposals ⟨"f(a,b )", 2⟩ "call").toOption.map
      (·.map fun proposal => (proposal.start, proposal.stop)) = some [(2, 5)] := by decide +kernel
  obtain ⟨proposals, found, places⟩ := Option.map_eq_some_iff.mp places
  obtain ⟨proposal, rfl, place⟩ := List.map_eq_singleton_iff.mp places
  obtain ⟨start, stop⟩ := Prod.mk.inj place
  have proposed := eq_ok_of_toOption found
  have lexes : completer.lexer = Sample.callLexicon.lexer := rfl
  obtain ⟨_, atCaret | ⟨_, tokens, count, spans, matched, _⟩, _⟩ :=
    proposals_overreach lexes proposed proposal List.mem_cons_self
  · rw [stop] at atCaret
    cases atCaret
  · rw [start, stop] at spans
    exact ⟨proposal, proposed, start, stop, tokens, count, spans, matched⟩

end Typeahead
