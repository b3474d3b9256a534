import Typeahead.Completion.Checked
import Typeahead.Proofs.Chart.Reach
import Typeahead.Proofs.Completion.Editing
import Typeahead.Proofs.Completion.Request

/-!
When a checked request has an answer. No lexer can make the search for proposals go out of range, and
what is made of the proposals stays in range if they lie in the text.
-/

namespace Typeahead

namespace Checked

variable {α : Type}

theorem ok_bind {β : Type} (value : α) (next : α → Checked β) :
    ((.ok value : Checked α) >>= next) = next value := rfl

theorem bind_eq_ok {β : Type} {first : Checked α} {next : α → Checked β} {value : β} :
    (first >>= next) = .ok value ↔ ∃ found, first = .ok found ∧ next found = .ok value := by
  cases first with
  | error fault => simp [bind, Except.bind]
  | ok found => simp [ok_bind]

theorem slice_eq_ok {part : Option String} {piece : String} :
    slice part = .ok piece ↔ part = some piece := by
  cases part <;> simp [slice]

theorem difference_of_le {whole part : Nat} (fits : part ≤ whole) :
    difference whole part = .ok (whole - part) := if_pos fits

theorem spend_eq (value : Unit → α) {find : Unit → Checked α} (found : find () = .ok (value ()))
    (budget : Nat) (otherwise : α) :
    spend budget otherwise find = .ok (Typeahead.spend budget otherwise value) := by
  cases budget with
  | zero => rfl
  | succ budget => rw [spend, found]; rfl

section Proposals

variable (completer : Completer) (buffer : Buffer)

theorem typedAt_eq {tokens : List Token} {position : Nat} (within : position ≤ tokens.length) :
    typedAt buffer tokens position = .ok (Completer.typedAt buffer tokens position) := by
  cases position with
  | zero => rfl
  | succ before =>
    have inside : before < tokens.length := within
    simp only [typedAt, Completer.typedAt, List.getElem?_eq_getElem inside, index, Option.elim_some,
      ok_bind, Option.bind_some]
    rfl

theorem inquiriesAt_eq {chart : Chart} {position : Nat} (within : position ≤ chart.tokens.length) :
    inquiriesAt completer buffer chart position =
      .ok (completer.inquiriesAt buffer chart position) := by
  rw [inquiriesAt, typedAt_eq buffer within]
  rfl

theorem inquiries_eq {chart : Chart} (size : chart.positions = chart.tokens.length + 1) :
    inquiries completer buffer chart = .ok (completer.inquiries buffer chart) := by
  have last : chart.positions - 1 = chart.tokens.length := by omega
  rw [inquiries, difference_of_le (by omega), ok_bind, Completer.inquiries, last,
    inquiriesAt_eq completer buffer (Nat.le_refl _), ok_bind]
  by_cases none : chart.tokens.length = 0
  · simp only [none, if_true, List.append_nil]
    rfl
  · rw [if_neg none, if_neg none, difference_of_le (by omega), ok_bind,
      inquiriesAt_eq completer buffer (Nat.sub_le _ _)]
    rfl

theorem getLast?_take_succ {tokens : List Token} {before : Nat} (inside : before < tokens.length) :
    (tokens.take (before + 1)).getLast? = some tokens[before] := by
  rw [List.take_succ_eq_append_getElem inside, List.getLast?_concat]

theorem reachEnd_eq {content : String} {start : Nat} (boundary : Text.IsBoundary content start)
    (element : Element) :
    reachEnd completer content start element = .ok (completer.reachEnd? content start element) := by
  obtain ⟨rest, cut⟩ := Text.isBoundary_iff_after?.mp boundary
  rw [reachEnd, Completer.reachEnd?, cut, slice_eq_ok.mpr rfl, ok_bind, Option.bind_eq_bind,
    Option.bind_some, Option.bind_eq_bind]
  cases (completer.lexer.items rest).toOption with
  | none => rfl
  | some items =>
    simp only [Option.bind_some, Option.bind_eq_bind]
    cases (allTokens (items.take completer.limits.maxReach)).toOption with
    | none => rfl
    | some tokens =>
      simp only [Option.bind_some]
      cases tokens with
      | nil => rfl
      | cons first others =>
        simp only [List.head?_cons, Option.any_some, Option.bind_some, decide_eq_true_eq]
        by_cases here : first.start = 0
        · rw [if_pos here, if_pos here]
          have within := element.reach_le completer.grammar (first :: others)
          cases reach : element.reach completer.grammar (first :: others) with
          | zero => rfl
          | succ before =>
            rw [reach] at within
            change (index (first :: others)[before]? >>= fun last => pure (some (start + last.stop))) =
              _
            rw [getLast?_take_succ within, List.getElem?_eq_getElem within]
            rfl
        · rw [if_neg here, if_neg here]
          rfl

theorem keepsToken_eq {tokens : List Token} {position : Nat} (positive : position ≠ 0)
    (within : position ≤ tokens.length) (before : String) (suggestion : Suggestion) :
    keepsToken completer tokens position before suggestion =
      .ok (completer.keepsToken tokens position before suggestion) := by
  have inside : position - 1 < tokens.length := by omega
  rw [keepsToken, difference_of_le (by omega), ok_bind, List.getElem?_eq_getElem inside]
  simp only [index, Option.elim_some, ok_bind, Completer.keepsToken]
  cases completer.lexer.tokenize (before ++ suggestion.content) with
  | error failure => rfl
  | ok reread =>
    simp only [List.getElem?_eq_getElem inside]
    by_cases longer : position < reread.length
    · have insideReread : position - 1 < reread.length := by omega
      simp only [longer, if_true, List.getElem?_eq_getElem insideReread, Option.elim_some, ok_bind,
        decide_true, Bool.true_and]
      rfl
    · simp only [longer, if_false, decide_false, Bool.false_and]
      split <;> rfl

theorem filterSuggestions_eq {keeps : Suggestion → Checked Bool} {value : Suggestion → Bool}
    (same : ∀ suggestion, keeps suggestion = .ok (value suggestion)) (suggestions : List Suggestion)
    (budget : Nat) :
    filterSuggestions keeps suggestions budget =
      .ok (Completer.filterSuggestions value suggestions budget) := by
  induction suggestions generalizing budget with
  | nil => rfl
  | cons suggestion rest ih =>
    rw [filterSuggestions, spend_eq (fun _ => value suggestion) (same suggestion), ok_bind, ih]
    rfl

theorem proposalsOf_eq {tokens : List Token} {offer : Offer}
    (typed : ∃ front, buffer.beforeCaret = front ++ offer.typed) (checked : Completer.checkCaret buffer = .ok ())
    (within : offer.position ≤ tokens.length) (budget : Nat) :
    proposalsOf completer buffer tokens offer budget =
      .ok (completer.proposalsOf buffer tokens offer budget) := by
  obtain ⟨after, whole, size⟩ := Completer.checkCaret_eq_ok checked
  obtain ⟨front, split⟩ := typed
  have start : buffer.caret - offer.typed.utf8ByteSize = front.utf8ByteSize := by
    rw [← size, split, String.utf8ByteSize_append, Nat.add_sub_cancel]
  have cut : Text.before? buffer.content front.utf8ByteSize = some front :=
    Text.before?_eq_some_iff.mpr ⟨offer.typed ++ after, by rw [whole, split, String.append_assoc], rfl⟩
  have fits : offer.typed.utf8ByteSize ≤ buffer.caret := by
    rw [← size, split, String.utf8ByteSize_append]
    omega
  have reach := reachEnd_eq completer (Text.isBoundary_iff_before?.mpr ⟨front, cut⟩) offer.site.element
  rw [proposalsOf, Completer.proposalsOf, difference_of_le fits, ok_bind, start, cut,
    spend_eq (fun _ =>
      completer.reachEnd? buffer.content front.utf8ByteSize offer.site.element) reach, ok_bind,
    slice_eq_ok.mpr rfl, ok_bind]
  by_cases first : offer.position = 0
  · simp only [first, if_true, ok_bind]
    rfl
  · rw [if_neg first, filterSuggestions_eq (keepsToken_eq completer first within front), ok_bind]
    simp only [if_neg first]
    rfl

theorem proposalsOfAll_eq {tokens : List Token} (checked : Completer.checkCaret buffer = .ok ())
    (offers : List Offer)
    (placed : ∀ offer ∈ offers, (∃ front, buffer.beforeCaret = front ++ offer.typed) ∧
      offer.position ≤ tokens.length) (budget : Nat) :
    proposalsOfAll completer buffer tokens offers budget =
      .ok (completer.proposalsOfAll buffer tokens offers budget) := by
  induction offers generalizing budget with
  | nil => rfl
  | cons offer offers ih =>
    obtain ⟨typed, within⟩ := placed offer List.mem_cons_self
    rw [proposalsOfAll, proposalsOf_eq completer buffer typed checked within, ok_bind,
      ih fun other listed => placed other (List.mem_cons_of_mem _ listed)]
    rfl

/-- Looking for proposals never leaves the range of a text or a list, whatever the lexer says. -/
theorem collect_eq (rule : String) :
    collect completer buffer rule = .ok (completer.collect buffer rule) := by
  unfold collect Completer.collect
  cases charted : completer.chart buffer rule with
  | error failure => rfl
  | ok chart =>
    obtain ⟨start, tokens, _, checked, _, rfl⟩ := Completer.chart_eq_ok charted
    have size := (Chart.parse_charted completer.grammar start tokens).2
    simp only
    rw [inquiries_eq completer buffer size, ok_bind, proposalsOfAll_eq completer buffer checked]
    · rfl
    · intro offer offered
      obtain ⟨inquiry, asked, offered⟩ := List.mem_filterMap.mp offered
      obtain ⟨_, place, typed, _⟩ := Inquiry.offer?_eq_some offered
      obtain ⟨position, near, asked⟩ := Completer.mem_inquiries asked
      obtain ⟨_, _, _, _, rfl⟩ := Completer.mem_inquiriesAt.mp asked
      rw [Chart.positions, size] at near
      have within : position ≤ tokens.length := by omega
      rw [place, typed]
      exact ⟨Completer.typedAt_suffix checked _ _, within⟩

theorem proposals_eq (rule : String) :
    proposals completer buffer rule = .ok (completer.proposals buffer rule) := by
  rw [proposals, collect_eq]
  rfl

end Proposals

section Edits

variable (completer : Completer) (buffer : Buffer) {content : String} {proposal : Proposal}
  {group : ProposalGroup}

theorem result_eq (fits : proposal.Fits content) :
    result content proposal = .ok (proposal.result content) := by
  obtain ⟨left, right, before, after, _, whole⟩ := fits.replaced_eq proposal.suggestion.content
  rw [result, before, after]
  exact congrArg Except.ok whole.symm

theorem boundaries_of_result {text : String} (found : result content proposal = .ok text) :
    Text.IsBoundary content proposal.start ∧ Text.IsBoundary content proposal.stop := by
  obtain ⟨left, before, found⟩ := bind_eq_ok.mp found
  obtain ⟨right, after, _⟩ := bind_eq_ok.mp found
  exact ⟨Text.isBoundary_iff_before?.mpr ⟨left, slice_eq_ok.mp before⟩,
    Text.isBoundary_iff_after?.mpr ⟨right, slice_eq_ok.mp after⟩⟩

theorem groupsFrom_eq (groups : List ProposalGroup) {proposals : List Proposal}
    (fits : ∀ proposal ∈ proposals, proposal.Fits content) :
    groupsFrom content groups proposals =
      .ok (proposals.foldl
        (fun groups proposal => ProposalGroup.put (proposal.result content) proposal groups)
        groups) := by
  induction proposals generalizing groups with
  | nil => rfl
  | cons proposal proposals ih =>
    rw [groupsFrom, result_eq (fits proposal List.mem_cons_self), ok_bind,
      ih _ fun other listed => fits other (List.mem_cons_of_mem _ listed), List.foldl_cons]

theorem boundaries_of_groupsFrom {groups found : List ProposalGroup} {proposals : List Proposal}
    (grouped : groupsFrom content groups proposals = .ok found) (listed : proposal ∈ proposals) :
    Text.IsBoundary content proposal.start ∧ Text.IsBoundary content proposal.stop := by
  induction proposals generalizing groups with
  | nil => cases listed
  | cons first proposals ih =>
    obtain ⟨text, applied, grouped⟩ := bind_eq_ok.mp grouped
    rcases List.mem_cons.mp listed with rfl | listed
    · exact boundaries_of_result applied
    · exact ih grouped listed

/-- As long as characters are expected, one of them is there to compare with. -/
theorem skipFrom_eq (offset : Nat) (chars : List Char) {expected : List Char}
    (expects : expected ≠ []) :
    skipFrom offset chars expected = .ok (Typeahead.skipFrom offset chars expected) := by
  induction chars generalizing offset expected with
  | nil => rfl
  | cons c chars ih =>
    cases expected with
    | nil => exact (expects rfl).elim
    | cons e expected =>
      rw [skipFrom, Typeahead.skipFrom]
      split
      · exact ih _ expects
      · split
        · split
          · rfl
          · rename_i unfinished
            exact ih _ (by simpa using unfinished)
        · rfl

theorem skipLiterals_eq (text : String) (literals : List String) :
    skipLiterals text literals = .ok (Typeahead.skipLiterals text literals) := by
  rw [skipLiterals, Typeahead.skipLiterals]
  cases expected : (String.join literals).toList.filter fun c => !Text.isBlank c with
  | nil => cases text.toList <;> rfl
  | cons e others => exact skipFrom_eq 0 _ (List.cons_ne_nil e others)

theorem needsBlank_eq (text literal : String) :
    needsBlank completer (text ++ literal) literal =
      .ok (completer.needsBlank? (text ++ literal) literal) := by
  have fits : literal.utf8ByteSize ≤ (text ++ literal).utf8ByteSize := by
    rw [String.utf8ByteSize_append]
    omega
  rw [needsBlank, Completer.needsBlank?]
  cases completer.lexer.tokenize (text ++ literal) with
  | error failure => rfl
  | ok tokens =>
    cases last : tokens.getLast? with
    | none => simp only [last]; rfl
    | some token => simp only [last, difference_of_le fits, ok_bind]; rfl

theorem appendLiterals_eq (literals : List String) (text : String) (budget : Nat) :
    appendLiterals completer literals text budget =
      .ok (completer.appendLiterals literals text budget) := by
  induction literals generalizing text budget with
  | nil => rfl
  | cons literal literals ih =>
    rw [appendLiterals, Completer.appendLiterals]
    split
    · rw [spend_eq (fun _ => completer.needsBlank? (text ++ literal) literal)
        (needsBlank_eq completer text literal), ok_bind]
      rcases Typeahead.spend budget none fun _ => completer.needsBlank? (text ++ literal) literal with
        ⟨_ | needs, left⟩
      · rfl
      · cases needs with
        | false => exact ih _ _
        | true => exact ih _ _
    · exact ih _ _

theorem extendedResult_eq (fits : proposal.Fits content) (budget : Nat) :
    extendedResult completer content proposal budget =
      .ok (completer.extendedResult content proposal budget) := by
  obtain ⟨left, right, before, after, _, _⟩ := fits.replaced_eq proposal.suggestion.content
  rw [extendedResult, Completer.extendedResult, before, slice_eq_ok.mpr rfl, ok_bind,
    appendLiterals_eq, ok_bind, Option.getD_some]
  cases appended : (completer.appendLiterals proposal.site.mandatoryAfter
      (left ++ proposal.suggestion.content) budget).1 with
  | none => rfl
  | some text =>
    simp only [Option.map_some, after, slice_eq_ok.mpr rfl, ok_bind, Option.getD_some]
    rfl

theorem agree_eq (text : String) (others : List Proposal)
    (fits : ∀ other ∈ others, other.Fits content) (budget : Nat) :
    agree completer content text others budget = .ok (completer.agree content text others budget) := by
  induction others generalizing budget with
  | nil => rfl
  | cons first others ih =>
    rw [agree, Completer.agree, extendedResult_eq completer (fits first List.mem_cons_self), ok_bind]
    split
    · exact ih (fun other listed => fits other (List.mem_cons_of_mem _ listed)) _
    · rfl

theorem agreedResult_eq (fits : group.Fits content) (budget : Nat) :
    agreedResult completer content group budget =
      .ok (completer.agreedResult? content group budget) := by
  rw [agreedResult, Completer.agreedResult?,
    extendedResult_eq completer (fits group.first List.mem_cons_self).1, ok_bind]
  rcases completer.extendedResult content group.first budget with ⟨_ | text, left⟩
  · rfl
  · simp only
    rw [agree_eq completer text group.others
      (fun other listed => (fits other (List.mem_cons_of_mem _ listed)).1), ok_bind]
    rfl

theorem editTo_eq (fits : group.first.Fits buffer.content) {text new : String}
    (grown : text = group.first.replaced buffer.content new) :
    editTo buffer group text = .ok (Completer.editTo buffer group text) := by
  obtain ⟨within, stop⟩ := fits.moved_stop new
  obtain ⟨right, behind, _⟩ := fits.after?_replaced new
  have middle := fits.between?_replaced new
  rw [← grown] at within stop behind middle
  have caret : caretIn group text (group.first.start + new.utf8ByteSize) =
      .ok (Completer.editTo buffer group text).caret := by
    rw [caretIn]
    simp only [Completer.editTo, stop, behind, Option.getD_some]
    cases group.first.placeholder? with
    | some caret => rfl
    | none =>
      simp only
      split
      · rw [slice_eq_ok.mpr rfl, ok_bind, skipLiterals_eq, ok_bind]
        rfl
      · rfl
  rw [editTo, difference_of_le within, ok_bind, stop, caret, ok_bind, middle, slice_eq_ok.mpr rfl,
    ok_bind]
  simp only [Completer.editTo, stop, middle, Option.getD_some]
  rfl

theorem editOf_eq (fits : group.Fits buffer.content) (budget : Nat) :
    editOf completer buffer group budget = .ok (completer.editOf buffer group budget) := by
  obtain ⟨first, plain⟩ := fits group.first List.mem_cons_self
  rw [editOf, Completer.editOf]
  split
  · rw [agreedResult_eq completer fits, ok_bind]
    have grown : ∃ new, (completer.agreedResult? buffer.content group budget).1.getD group.text =
        group.first.replaced buffer.content new := by
      cases agreed : (completer.agreedResult? buffer.content group budget).1 with
      | none => exact ⟨_, plain.symm⟩
      | some text =>
        obtain ⟨left, extended⟩ := Completer.agreedResult?_eq_some agreed List.mem_cons_self
        obtain ⟨_, tail, _, whole⟩ := Completer.extendedResult_eq_some first extended
        exact ⟨_, whole⟩
    obtain ⟨new, grown⟩ := grown
    rw [editTo_eq buffer first grown]
    rfl
  · rw [editTo_eq buffer first plain.symm]
    rfl

theorem editsOf_eq (groups : List ProposalGroup)
    (fit : ∀ group ∈ groups, group.Fits buffer.content) (budget : Nat) :
    editsOf completer buffer groups budget = .ok (completer.editsOf buffer groups budget) := by
  induction groups generalizing budget with
  | nil => rfl
  | cons group groups ih =>
    rw [editsOf, editOf_eq completer buffer (fit group List.mem_cons_self), ok_bind,
      ih fun other listed => fit other (List.mem_cons_of_mem _ listed)]
    rfl

end Edits

section Request

variable {completer : Completer} {buffer : Buffer} {rule : String}

/-- Where all proposals lie in the text, a request stays in range all the way. -/
theorem complete_eq (fits : ∀ proposals, completer.proposals buffer rule = .ok proposals →
      ∀ proposal ∈ proposals, proposal.Fits buffer.content) :
    complete completer buffer rule = .ok (completer.complete buffer rule) := by
  rw [complete, collect_eq, ok_bind, Completer.complete]
  rw [Completer.proposals] at fits
  cases found : completer.collect buffer rule with
  | error failure => rfl
  | ok collected =>
    rw [found] at fits
    have fits := fits collected.1 rfl
    have grouped : groupsFrom buffer.content [] collected.1 =
        .ok (ProposalGroup.ofProposals buffer.content collected.1) := groupsFrom_eq [] fits
    simp only
    rw [grouped, ok_bind, editsOf_eq completer buffer _ (ProposalGroup.ofProposals_fits fits)]
    rfl

/-- A request that stays in range has an answer only if all proposals begin and end in the text. -/
theorem boundaries_of_complete {edits : List Edit}
    (answered : complete completer buffer rule = .ok (.ok edits)) :
    ∃ proposals, completer.proposals buffer rule = .ok proposals ∧ ∀ proposal ∈ proposals,
      Text.IsBoundary buffer.content proposal.start ∧
        Text.IsBoundary buffer.content proposal.stop := by
  rw [complete, collect_eq, ok_bind] at answered
  rw [Completer.proposals]
  cases found : completer.collect buffer rule with
  | error failure => rw [found] at answered; cases answered
  | ok collected =>
    rw [found] at answered
    obtain ⟨groups, grouped, _⟩ := bind_eq_ok.mp answered
    exact ⟨collected.1, rfl, fun _ listed => boundaries_of_groupsFrom grouped listed⟩

end Request

end Checked

end Typeahead
