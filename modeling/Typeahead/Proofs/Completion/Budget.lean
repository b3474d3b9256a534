import Mathlib.Algebra.GroupWithZero.Nat
import Typeahead.Completion.Proposal

/-!
What the budget for reading texts anew has to do with the proposals. How much of it an offer takes depends on the
offer alone, so that the checks of a request are always the same, and only the last of them may be left out.
-/

namespace Typeahead

/-- How many texts are read in order to refine an offer: one to see what it would replace, and one for each
suggestion if a token stands before it. -/
def Offer.rereads (offer : Offer) : Nat :=
  1 + if offer.position = 0 then 0 else offer.suggestions.length

namespace Completer

/-- All that the source has to offer. -/
def offers (completer : Completer) (buffer : Buffer) (chart : Chart) : List Offer :=
  (completer.inquiries buffer chart).filterMap (·.offer? completer.source)

/-- The budget suffices to check everything that is offered. -/
def Affords (completer : Completer) (buffer : Buffer) (chart : Chart) : Prop :=
  ((completer.offers buffer chart).map Offer.rereads).sum ≤ completer.limits.rereads

instance (completer : Completer) (buffer : Buffer) (chart : Chart) :
    Decidable (completer.Affords buffer chart) := inferInstanceAs (Decidable (_ ≤ _))

/-- Where the proposals for an offer stop. Without a budget, that is the caret. -/
def stopOf (completer : Completer) (buffer : Buffer) (offer : Offer) (budget : Nat) : Nat :=
  let reach := if budget = 0 then none else
    completer.reachEnd? buffer.content (buffer.caret - offer.typed.utf8ByteSize) offer.site.element
  max (reach.getD buffer.caret) buffer.caret

/-- The suggestions of an offer that are proposed: of those that the budget is enough for, the ones that pass the
check, and all others. -/
def keptOf (completer : Completer) (buffer : Buffer) (tokens : List Token) (offer : Offer) (budget : Nat) :
    List Suggestion :=
  if offer.position = 0 then offer.suggestions
  else
    let before := (Text.before? buffer.content (buffer.caret - offer.typed.utf8ByteSize)).getD ""
    (offer.suggestions.take budget).filter (completer.keepsToken tokens offer.position before) ++
      offer.suggestions.drop budget

variable {completer : Completer} {buffer : Buffer} {rule : String} {chart : Chart} {proposal : Proposal}
  {offer : Offer} {tokens : List Token} {budget less more : Nat}

theorem spend_eq {α : Type} (budget : Nat) (otherwise : α) (find : Unit → α) :
    spend budget otherwise find = (if budget = 0 then otherwise else find (), budget - 1) := by
  cases budget with
  | zero => rfl
  | succ budget => rfl

theorem filterSuggestions_eq (keeps : Suggestion → Bool) (suggestions : List Suggestion) (budget : Nat) :
    filterSuggestions keeps suggestions budget =
      ((suggestions.take budget).filter keeps ++ suggestions.drop budget, budget - suggestions.length) := by
  induction suggestions generalizing budget with
  | nil => simp [filterSuggestions]
  | cons suggestion rest ih =>
    rw [filterSuggestions, ih]
    cases budget with
    | zero => simp [spend]
    | succ budget =>
      rw [spend, List.take_succ_cons, List.drop_succ_cons, List.length_cons, Nat.add_sub_add_right,
        List.filter_cons]
      dsimp only
      split
      · rfl
      · rfl

/-- What an offer is turned into, and what is left of the budget behind it. -/
theorem proposalsOf_eq (completer : Completer) (buffer : Buffer) (tokens : List Token) (offer : Offer)
    (budget : Nat) : completer.proposalsOf buffer tokens offer budget =
      ((completer.keptOf buffer tokens offer (budget - 1)).map fun suggestion =>
        ⟨offer.site, buffer.caret - offer.typed.utf8ByteSize, completer.stopOf buffer offer budget, suggestion⟩,
      budget - offer.rereads) := by
  rw [proposalsOf, spend_eq, stopOf, keptOf, Offer.rereads]
  by_cases first : offer.position = 0
  · simp only [if_pos first]
  · simp only [if_neg first, filterSuggestions_eq, Nat.sub_sub]

/-- One budget for all offers: behind each, what it did not take. -/
theorem proposalsOfAll_cons (completer : Completer) (buffer : Buffer) (tokens : List Token) (offer : Offer)
    (offers : List Offer) (budget : Nat) :
    (completer.proposalsOfAll buffer tokens (offer :: offers) budget).1 =
      (completer.proposalsOf buffer tokens offer budget).1 ++
        (completer.proposalsOfAll buffer tokens offers (budget - offer.rereads)).1 := by
  rw [proposalsOfAll, proposalsOf_eq]

/-- What offers are turned into depends on the grammar, the lexer and how many tokens are looked at. -/
theorem proposalsOfAll_congr (other completer : Completer) (grammar : other.grammar = completer.grammar)
    (lexer : other.lexer = completer.lexer) (reach : other.limits.maxReach = completer.limits.maxReach)
    (offers : List Offer) (budget : Nat) :
    other.proposalsOfAll buffer tokens offers budget = completer.proposalsOfAll buffer tokens offers budget := by
  have same (offer : Offer) (budget : Nat) :
      other.proposalsOf buffer tokens offer budget = completer.proposalsOf buffer tokens offer budget := by
    have ends : other.reachEnd? = completer.reachEnd? := by
      funext content start element
      simp only [reachEnd?, grammar, lexer, reach]
    have keeps : other.keepsToken = completer.keepsToken := by
      funext tokens position before suggestion
      simp only [keepsToken, lexer]
    rw [proposalsOf, proposalsOf, ends, keeps]
  induction offers generalizing budget with
  | nil => rfl
  | cons offer offers ih => rw [proposalsOfAll, proposalsOfAll, same, ih]

theorem proposals_eq (completer : Completer) (buffer : Buffer) (rule : String) :
    completer.proposals buffer rule = (completer.chart buffer rule).map fun chart =>
      (completer.proposalsOfAll buffer chart.tokens (completer.offers buffer chart)
        completer.limits.rereads).1 := by
  rw [proposals, collect]
  cases completer.chart buffer rule with
  | error failure => rfl
  | ok chart => rfl

theorem stopOf_of_pos (some : 0 < less) (ordered : less ≤ more) :
    completer.stopOf buffer offer less = completer.stopOf buffer offer more := by
  rw [stopOf, stopOf, if_neg (Nat.ne_of_gt some), if_neg (Nat.ne_of_gt (Nat.lt_of_lt_of_le some ordered))]

/-- With more of a budget, proposals do not stop earlier. -/
theorem stopOf_mono (ordered : less ≤ more) :
    completer.stopOf buffer offer less ≤ completer.stopOf buffer offer more := by
  rcases Nat.eq_zero_or_pos less with rfl | some
  · rw [stopOf, if_pos rfl, Option.getD_none, Nat.max_self]
    exact Nat.le_max_right _ _
  · exact Nat.le_of_eq (stopOf_of_pos some ordered)

theorem stopOf_cases (completer : Completer) (buffer : Buffer) (offer : Offer) (budget : Nat) :
    completer.stopOf buffer offer budget = buffer.caret ∨
      ∃ reach, completer.stopOf buffer offer budget = max reach buffer.caret ∧ completer.reachEnd? buffer.content
        (buffer.caret - offer.typed.utf8ByteSize) offer.site.element = some reach := by
  rw [stopOf]
  split
  · exact .inl (Nat.max_self _)
  · cases completer.reachEnd? buffer.content (buffer.caret - offer.typed.utf8ByteSize) offer.site.element with
    | none => exact .inl (Nat.max_self _)
    | some reach => exact .inr ⟨reach, rfl, rfl⟩

theorem keptOf_zero : completer.keptOf buffer tokens offer 0 = offer.suggestions := by
  rw [keptOf]
  exact ite_self offer.suggestions

/-- With more of a budget, no other suggestions are proposed. -/
theorem keptOf_sublist (ordered : less ≤ more) :
    (completer.keptOf buffer tokens offer more).Sublist (completer.keptOf buffer tokens offer less) := by
  rw [keptOf, keptOf]
  split
  · exact .refl _
  · obtain ⟨extra, rfl⟩ := Nat.exists_eq_add_of_le ordered
    dsimp only
    rw [List.take_add, List.filter_append, List.append_assoc, ← List.drop_drop]
    refine .append (.refl _) ?_
    have checked := (List.filter_sublist (p := completer.keepsToken tokens offer.position
      ((Text.before? buffer.content (buffer.caret - offer.typed.utf8ByteSize)).getD ""))
      (l := (offer.suggestions.drop less).take extra)).append_right ((offer.suggestions.drop less).drop extra)
    rwa [List.take_append_drop] at checked

theorem mem_of_mem_keptOf {suggestion : Suggestion}
    (kept : suggestion ∈ completer.keptOf buffer tokens offer budget) : suggestion ∈ offer.suggestions := by
  have among := (keptOf_sublist (Nat.zero_le budget)).mem kept
  rwa [keptOf_zero] at among

/-- With a budget that is enough, no suggestion goes unchecked. -/
theorem keptOf_of_le (enough : offer.rereads ≤ budget + 1) : completer.keptOf buffer tokens offer budget =
    if offer.position = 0 then offer.suggestions else offer.suggestions.filter
      (completer.keepsToken tokens offer.position
        ((Text.before? buffer.content (buffer.caret - offer.typed.utf8ByteSize)).getD "")) := by
  rw [Offer.rereads] at enough
  rw [keptOf]
  split
  · rfl
  · rename_i behind
    rw [if_neg behind] at enough
    dsimp only
    rw [List.take_of_length_le (by omega), List.drop_of_length_le (by omega), List.append_nil]

theorem proposalsOf_of_le (enough : offer.rereads ≤ budget) :
    (completer.proposalsOf buffer tokens offer budget).1 =
      (completer.proposalsOf buffer tokens offer offer.rereads).1 := by
  have some : 0 < offer.rereads := by
    rw [Offer.rereads]
    omega
  rw [proposalsOf_eq, proposalsOf_eq, keptOf_of_le (by omega), keptOf_of_le (by omega),
    stopOf_of_pos some enough]

/-- With a budget that is enough for all offers, each of them gets what it takes. -/
theorem proposalsOfAll_of_le {offers : List Offer} (enough : (offers.map Offer.rereads).sum ≤ budget) :
    (completer.proposalsOfAll buffer tokens offers budget).1 =
      offers.flatMap fun offer => (completer.proposalsOf buffer tokens offer offer.rereads).1 := by
  induction offers generalizing budget with
  | nil => rfl
  | cons offer offers ih =>
    rw [List.map_cons, List.sum_cons] at enough
    rw [proposalsOfAll_cons, proposalsOf_of_le (Nat.le_trans (Nat.le_add_right _ _) enough), ih (by omega),
      List.flatMap_cons]

/-- If all checks of an offer are made, its proposals stop where its element reaches. -/
theorem stop_of_mem_proposalsOf (listed : proposal ∈ (completer.proposalsOf buffer tokens offer offer.rereads).1) :
    proposal.stop = max ((completer.reachEnd? buffer.content proposal.start proposal.site.element).getD
      buffer.caret) buffer.caret := by
  rw [proposalsOf_eq] at listed
  obtain ⟨suggestion, _, rfl⟩ := List.mem_map.mp listed
  rw [stopOf, if_neg (by rw [Offer.rereads]; omega)]

end Completer

end Typeahead
