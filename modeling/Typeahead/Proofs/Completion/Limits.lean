import Typeahead.Proofs.Completion.Budget
import Typeahead.Proofs.Completion.Overreach

/-!
What the limits of a request do to its proposals: how many tokens are looked at decides how far proposals reach
and nothing else, and a budget that is used up only leaves proposals as they were found. For each limit, one
request is compared with the same request under another value of that limit.
-/

namespace Typeahead

/-- Two computations that both fail, in the same way, or both give a result, and the results are related. -/
inductive Alike {ε α β : Type} (related : α → β → Prop) : Except ε α → Except ε β → Prop where
  | ok {left : α} {right : β} : related left right → Alike related (.ok left) (.ok right)
  | error (failure : ε) : Alike related (.error failure) (.error failure)

theorem Alike.map {ε α β γ : Type} {related : β → γ → Prop} {left : α → β} {right : α → γ}
    (computed : Except ε α) (relates : ∀ found, computed = .ok found → related (left found) (right found)) :
    Alike related (computed.map left) (computed.map right) := by
  cases computed with
  | error failure => exact .error failure
  | ok found => exact .ok (relates found rfl)

/-- Two proposals that differ in nothing but where they stop, the first one no further behind than the other. -/
structure Proposal.Narrows (narrow wide : Proposal) : Prop where
  site : narrow.site = wide.site
  start : narrow.start = wide.start
  suggestion : narrow.suggestion = wide.suggestion
  stop : narrow.stop ≤ wide.stop

theorem Proposal.narrows_map (site : Site) (start : Nat) {stop beyond : Nat} (ordered : stop ≤ beyond)
    (suggestions : List Suggestion) : List.Forall₂ Proposal.Narrows
      (suggestions.map (Proposal.mk site start stop)) (suggestions.map (Proposal.mk site start beyond)) := by
  refine List.forall₂_map_left_iff.mpr (List.forall₂_map_right_iff.mpr (List.forall₂_same.mpr ?_))
  exact fun suggestion _ => ⟨rfl, rfl, rfl, ordered⟩

/-- What is left of some proposals when more of them are refined: some are dropped, and the others reach no less
far than they did. -/
def Refines (raw refined : List Proposal) : Prop :=
  ∃ kept : List Proposal, kept.Sublist raw ∧ List.Forall₂ Proposal.Narrows kept refined

theorem Refines.append {raw refined others otherRefined : List Proposal} (first : Refines raw refined)
    (second : Refines others otherRefined) : Refines (raw ++ others) (refined ++ otherRefined) := by
  obtain ⟨kept, part, pairs⟩ := first
  obtain ⟨otherKept, otherPart, otherPairs⟩ := second
  exact ⟨kept ++ otherKept, part.append otherPart, List.rel_append pairs otherPairs⟩

namespace Completer

/-- The same, but for how many tokens are looked at. -/
def withReach (completer : Completer) (count : Nat) : Completer :=
  { completer with limits := { completer.limits with maxReach := count } }

/-- The same, but for how often texts may be read anew. -/
def withRereads (completer : Completer) (count : Nat) : Completer :=
  { completer with limits := { completer.limits with rereads := count } }

variable {completer : Completer} {buffer : Buffer} {rule : String} {chart : Chart} {lexicon : Lexicon}
  {content : String} {element : Element} {offer : Offer} {tokens : List Token} {start stop count less more : Nat}

section Reach

theorem lexes_withReach {count : Nat} (lexes : completer.lexer = lexicon.lexer) :
    (completer.withReach count).lexer = lexicon.lexer := lexes

/-- If more tokens are looked at, an element that spans some of them spans no fewer. -/
theorem Spans.further (lexes : completer.lexer = lexicon.lexer) (ordered : less ≤ more)
    (spans : Spans (completer.withReach less) content element start stop tokens count) :
    ∃ beyond far, stop ≤ beyond ∧
      Spans (completer.withReach more) content element start beyond tokens far := by
  have longer : count ≤ element.reach completer.grammar (tokens.take more) :=
    Nat.le_trans (Nat.le_of_eq spans.takes.symm)
      (element.reach_of_initial (tokens.take_prefix_take_left ordered))
  have within := element.reach_le completer.grammar (tokens.take more)
  have positive := Nat.le_trans spans.nonempty longer
  obtain ⟨place, far⟩ := Nat.exists_eq_add_of_le' positive
  rw [List.length_take, Nat.le_min, far] at within
  obtain ⟨last, here, rfl⟩ := Option.map_eq_some_iff.mp spans.ends
  -- the last of the tokens spanned before is among those spanned now, and no later one stops earlier
  have before : last.stop ≤ Token.stopBefore 0 tokens (place + 1) :=
    (spans.ascending lexes).stop_le_stopBefore here (by have := spans.nonempty; omega) within.2
  rw [Token.stopBefore, List.getElem?_eq_getElem within.2] at before
  exact ⟨start + tokens[place].stop, place + 1, Nat.add_le_add_left before start, spans.read, spans.begins,
    Nat.le_add_left 1 place, within.1, far,
    by rw [Nat.add_sub_cancel, List.getElem?_eq_getElem within.2, Option.map_some]⟩

theorem stopOf_withReach (lexes : completer.lexer = lexicon.lexer) (ordered : less ≤ more)
    (offer : Offer) (budget : Nat) :
    (completer.withReach less).stopOf buffer offer budget ≤
      (completer.withReach more).stopOf buffer offer budget := by
  simp only [stopOf]
  split
  · exact Nat.le_refl _
  · cases reached : (completer.withReach less).reachEnd? buffer.content
        (buffer.caret - offer.typed.utf8ByteSize) offer.site.element with
    | none =>
      rw [Option.getD_none, Nat.max_self]
      exact Nat.le_max_right _ _
    | some stop =>
      obtain ⟨tokens, count, spans⟩ := (reachEnd?_eq_some_iff (lexes_withReach lexes)).mp reached
      obtain ⟨beyond, far, behind, spans⟩ := spans.further lexes ordered
      have further := (reachEnd?_eq_some_iff (lexes_withReach lexes)).mpr ⟨tokens, far, spans⟩
      rw [further, Option.getD_some, Option.getD_some]
      omega

/-- Where no tokens are looked at, nothing is reached. -/
theorem reachEnd?_withReach_zero (lexes : completer.lexer = lexicon.lexer) (content : String) (start : Nat)
    (element : Element) : (completer.withReach 0).reachEnd? content start element = none := by
  by_contra reached
  obtain ⟨stop, reached⟩ := Option.ne_none_iff_exists'.mp reached
  obtain ⟨tokens, count, spans⟩ := (reachEnd?_eq_some_iff (lexes_withReach lexes)).mp reached
  have limited : count ≤ 0 := spans.limited
  have nonempty := spans.nonempty
  omega

theorem proposalsOfAll_withReach (lexes : completer.lexer = lexicon.lexer) (ordered : less ≤ more)
    (tokens : List Token) (offers : List Offer) (budget : Nat) : List.Forall₂ Proposal.Narrows
      ((completer.withReach less).proposalsOfAll buffer tokens offers budget).1
      ((completer.withReach more).proposalsOfAll buffer tokens offers budget).1 := by
  induction offers generalizing budget with
  | nil => exact .nil
  | cons offer offers ih =>
    rw [proposalsOfAll_cons, proposalsOfAll_cons]
    refine List.rel_append ?_ (ih _)
    rw [proposalsOf_eq, proposalsOf_eq]
    exact Proposal.narrows_map _ _ (stopOf_withReach lexes ordered offer budget) _

end Reach

section Rereads

/-- Under another budget, the same is offered, and the same is made of it but for the budget. -/
theorem proposals_withRereads_eq (completer : Completer) (buffer : Buffer) (rule : String) (count : Nat) :
    (completer.withRereads count).proposals buffer rule = (completer.chart buffer rule).map fun chart =>
      (completer.proposalsOfAll buffer chart.tokens (completer.offers buffer chart) count).1 := by
  rw [proposals_eq]
  congr 1
  funext chart
  exact congrArg Prod.fst (proposalsOfAll_congr (completer.withRereads count) completer rfl rfl rfl
    (completer.offers buffer chart) count)

theorem proposalsOf_refines (completer : Completer) (buffer : Buffer) (tokens : List Token) (offer : Offer)
    (ordered : less ≤ more) : Refines (completer.proposalsOf buffer tokens offer less).1
      (completer.proposalsOf buffer tokens offer more).1 := by
  rw [proposalsOf_eq, proposalsOf_eq]
  exact ⟨_, (keptOf_sublist (Nat.sub_le_sub_right ordered 1)).map _,
    Proposal.narrows_map _ _ (stopOf_mono ordered) _⟩

/-- Both runs make the same checks, whatever comes out of them, so that the one that had more of a budget before
an offer has more of it behind the offer. -/
theorem proposalsOfAll_refines (completer : Completer) (buffer : Buffer) (tokens : List Token)
    (offers : List Offer) (ordered : less ≤ more) :
    Refines (completer.proposalsOfAll buffer tokens offers less).1
      (completer.proposalsOfAll buffer tokens offers more).1 := by
  induction offers generalizing less more with
  | nil => exact ⟨[], .slnil, .nil⟩
  | cons offer offers ih =>
    rw [proposalsOfAll_cons, proposalsOfAll_cons]
    exact (proposalsOf_refines completer buffer tokens offer ordered).append
      (ih (Nat.sub_le_sub_right ordered _))

theorem sum_rereads_le (offers : List Offer) :
    (offers.map Offer.rereads).sum ≤ offers.length + (offers.map (·.suggestions.length)).sum := by
  induction offers with
  | nil => exact Nat.le_refl _
  | cons offer offers ih =>
    have first : offer.rereads ≤ 1 + offer.suggestions.length := by
      rw [Offer.rereads]
      split <;> omega
    rw [List.map_cons, List.sum_cons, List.map_cons, List.sum_cons, List.length_cons]
    omega

end Rereads

/-- How many tokens are looked at behind the start of a proposal decides how far it reaches, and nothing else: a
request gives the same proposals, the fewer tokens the earlier their stops, and the caret if there are none. An
element takes no fewer tokens where an input goes on. -/
theorem proposals_withReach (lexes : completer.lexer = lexicon.lexer) (buffer : Buffer) (rule : String) :
    (∀ less more, less ≤ more → Alike (List.Forall₂ Proposal.Narrows)
      ((completer.withReach less).proposals buffer rule)
      ((completer.withReach more).proposals buffer rule)) ∧
    (∀ proposals, (completer.withReach 0).proposals buffer rule = .ok proposals →
      ∀ proposal ∈ proposals, proposal.stop = buffer.caret) ∧
    ∀ (grammar : Grammar) (element : Element) (tokens more : List Token),
      element.reach grammar tokens ≤ element.reach grammar (tokens ++ more) := by
  refine ⟨fun less more ordered => ?_, fun proposals proposed proposal listed => ?_,
    fun grammar element tokens more => element.reach_of_initial (List.prefix_append _ _)⟩
  · rw [proposals_eq, proposals_eq]
    exact .map _ fun chart _ => proposalsOfAll_withReach lexes ordered chart.tokens _ _
  · obtain ⟨chart, _, origins⟩ := proposals_eq_ok proposed
    obtain ⟨position, id, path, origin⟩ := origins proposal listed
    obtain ⟨offer, proposes, _⟩ := origin.proposes
    rcases proposes.stop with atCaret | ⟨reach, _, reached⟩
    · exact atCaret
    · rw [reachEnd?_withReach_zero lexes] at reached
      cases reached

/-- If two tokens are looked at, one argument is all that is seen to give way, and if none is, nothing is. -/
theorem proposals_withReach_call :
    let completer := { Sample.callCompleter with source := Sample.arguments }
    ∃ none one all, (completer.withReach 0).proposals ⟨"f(a,b )", 2⟩ "call" = .ok [none] ∧
      (completer.withReach 2).proposals ⟨"f(a,b )", 2⟩ "call" = .ok [one] ∧
      (completer.withReach 3).proposals ⟨"f(a,b )", 2⟩ "call" = .ok [all] ∧
      none.stop = 2 ∧ one.stop = 3 ∧ all.stop = 5 ∧ one.Narrows all := by
  intro completer
  have single (count place : Nat) (places : ((completer.withReach count).proposals ⟨"f(a,b )", 2⟩
      "call").toOption.map (·.map Proposal.stop) = some [place]) : ∃ proposal,
      (completer.withReach count).proposals ⟨"f(a,b )", 2⟩ "call" = .ok [proposal] ∧ proposal.stop = place := by
    obtain ⟨proposals, found, places⟩ := Option.map_eq_some_iff.mp places
    obtain ⟨proposal, rfl, stop⟩ := List.map_eq_singleton_iff.mp places
    exact ⟨proposal, eq_ok_of_toOption found, stop⟩
  obtain ⟨none, withNone, _⟩ := single 0 2 (by decide +kernel)
  obtain ⟨one, withOne, one_stop⟩ := single 2 3 (by decide +kernel)
  obtain ⟨all, withAll, all_stop⟩ := single 3 5 (by decide +kernel)
  have lexes : completer.lexer = Sample.callLexicon.lexer := rfl
  obtain ⟨narrows, atCaret, _⟩ := proposals_withReach lexes ⟨"f(a,b )", 2⟩ "call"
  have pairs := narrows 2 3 (by decide)
  rw [withOne, withAll] at pairs
  cases pairs with
  | ok pairs =>
    exact ⟨none, one, all, withNone, withOne, withAll, atCaret _ withNone none List.mem_cons_self, one_stop,
      all_stop, (List.forall₂_cons.mp pairs).1⟩

/-- The budget for reading texts anew is for refinements alone. With more of it, proposals may be dropped, and
others may stop further behind, but none is added and nothing else is changed, nor is a failure. With one for each
offer and one for each suggestion, more of it makes no difference. -/
theorem proposals_withRereads (completer : Completer) (buffer : Buffer) (rule : String) :
    (∀ less more, less ≤ more → Alike Refines
      ((completer.withRereads less).proposals buffer rule)
      ((completer.withRereads more).proposals buffer rule)) ∧
    ∀ chart, completer.chart buffer rule = .ok chart →
      let offers := completer.offers buffer chart
      ∀ less more, offers.length + (offers.map (·.suggestions.length)).sum ≤ less →
        offers.length + (offers.map (·.suggestions.length)).sum ≤ more →
        (completer.withRereads less).proposals buffer rule =
          (completer.withRereads more).proposals buffer rule := by
  refine ⟨fun less more ordered => ?_, fun chart charted less more enough sufficient => ?_⟩
  · rw [proposals_withRereads_eq, proposals_withRereads_eq]
    exact .map _ fun chart _ => proposalsOfAll_refines completer buffer chart.tokens _ ordered
  · have checks := sum_rereads_le (completer.offers buffer chart)
    rw [proposals_withRereads_eq, proposals_withRereads_eq, charted, Except.map, Except.map,
      proposalsOfAll_of_le (Nat.le_trans checks enough), proposalsOfAll_of_le (Nat.le_trans checks sufficient)]

end Completer

namespace Sample

/-- Knows a parenthesis, and one with a letter in front, which would become a part of a name before it. -/
def parentheses : Source := fun site _ =>
  match site.element.symbol with
  | .literal "(" _ => .ok [{ content := "(" }, { content := "x(" }]
  | _ => .ok []

end Sample

/-- A budget of three is enough to see that the parenthesis is there already, and that the other suggestion does
not fit. Without a budget, both are proposed. -/
theorem Completer.proposals_withRereads_call :
    let completer := { Sample.callCompleter with source := Sample.parentheses }
    ∃ raw refined, (completer.withRereads 0).proposals ⟨"f(a,b )", 1⟩ "call" = .ok raw ∧
      (completer.withRereads 3).proposals ⟨"f(a,b )", 1⟩ "call" = .ok refined ∧
      raw.map (fun proposal => (proposal.stop, proposal.suggestion.content)) = [(1, "("), (1, "x(")] ∧
      refined.map (fun proposal => (proposal.stop, proposal.suggestion.content)) = [(2, "(")] ∧
      Refines raw refined ∧ (completer.withRereads 256).proposals ⟨"f(a,b )", 1⟩ "call" = .ok refined := by
  intro completer
  have seen (count : Nat) (places : List (Nat × String)) (listed : ((completer.withRereads count).proposals
      ⟨"f(a,b )", 1⟩ "call").toOption.map (·.map fun proposal => (proposal.stop, proposal.suggestion.content)) =
      some places) : ∃ proposals, (completer.withRereads count).proposals ⟨"f(a,b )", 1⟩ "call" = .ok proposals ∧
      proposals.map (fun proposal => (proposal.stop, proposal.suggestion.content)) = places := by
    obtain ⟨proposals, found, places⟩ := Option.map_eq_some_iff.mp listed
    exact ⟨proposals, eq_ok_of_toOption found, places⟩
  have charts : (completer.chart ⟨"f(a,b )", 1⟩ "call").toOption.any (fun chart =>
      (completer.offers ⟨"f(a,b )", 1⟩ chart).length +
        ((completer.offers ⟨"f(a,b )", 1⟩ chart).map (·.suggestions.length)).sum ≤ 3) = true := by decide +kernel
  obtain ⟨raw, without, rawPlaces⟩ := seen 0 [(1, "("), (1, "x(")] (by decide +kernel)
  obtain ⟨refined, within, refinedPlaces⟩ := seen 3 [(2, "(")] (by decide +kernel)
  obtain ⟨chart, found, holds⟩ := (Option.any_eq_true _ _).mp charts
  have enough := of_decide_eq_true holds
  obtain ⟨refines, settled⟩ := proposals_withRereads completer ⟨"f(a,b )", 1⟩ "call"
  have kept := refines 0 3 (by decide)
  rw [without, within] at kept
  have same := settled chart (eq_ok_of_toOption found) 3 256 enough (Nat.le_trans enough (by decide))
  cases kept with
  | ok kept => exact ⟨raw, refined, without, within, rawPlaces, refinedPlaces, kept, same.symm.trans within⟩

end Typeahead
