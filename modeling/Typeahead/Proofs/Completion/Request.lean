import Typeahead.Completion.Complete
import Typeahead.Proofs.Completion.Budget
import Typeahead.Proofs.Results
import Typeahead.Proofs.Text.Boundary

/-!
Where the proposals of a request come from: a chart of the text before the caret, a position of it that is
looked at, a path from a node that expects a terminal there, and a site on it that the source has
suggestions for.
-/

namespace Typeahead

/-- The sites of a path look at its levels, each with all that lie around it. -/
theorem Site.mem_chain {grammar : Grammar} {depth : Nat} {path : Path} {site : Site}
    (listed : site ∈ chain grammar depth path) :
    site.grammar = grammar ∧ ∃ above, site.depth = depth + above ∧
      path.drop above = site.level :: site.enclosing := by
  induction path generalizing depth with
  | nil => cases listed
  | cons level enclosing ih =>
    rw [chain, List.mem_cons] at listed
    rcases listed with rfl | listed
    · exact ⟨rfl, 0, rfl, rfl⟩
    · split at listed
      · obtain ⟨same, above, place, here⟩ := ih listed
        exact ⟨same, above + 1, by omega, here⟩
      · cases listed

namespace Inquiry

variable {source : Source} {inquiry : Inquiry} {offer : Offer}

theorem answer?_eq_some {site : Site} (answered : inquiry.answer? source site = some offer) :
    offer.site = site ∧ offer.position = inquiry.position ∧ offer.typed = inquiry.typed ∧
      source site inquiry.typed = .ok offer.suggestions := by
  unfold answer? at answered
  split at answered
  · rename_i first others said
    cases answered
    exact ⟨rfl, rfl, rfl, said⟩
  · cases answered

theorem mem_askedFrom {sites : List Site} (found : sites.findSome? (inquiry.answer? source) = some offer) :
    offer.site ∈ inquiry.askedFrom source sites := by
  induction sites with
  | nil => cases found
  | cons site sites ih =>
    rw [askedFrom]
    cases answered : inquiry.answer? source site with
    | some first =>
      rw [List.findSome?_cons, answered] at found
      cases found
      rw [(answer?_eq_some answered).1]
      exact List.mem_cons_self
    | none =>
      rw [List.findSome?_cons, answered] at found
      exact List.mem_cons_of_mem _ (ih found)

theorem offer?_eq_some (offered : inquiry.offer? source = some offer) :
    offer.site ∈ inquiry.sites ∧ offer.position = inquiry.position ∧ offer.typed = inquiry.typed ∧
      source offer.site offer.typed = .ok offer.suggestions := by
  obtain ⟨site, listed, answered⟩ := List.exists_of_findSome?_eq_some offered
  obtain ⟨rfl, position, typed, said⟩ := answer?_eq_some answered
  exact ⟨listed, position, typed, by rw [typed, said]⟩

end Inquiry

namespace Completer

variable {completer : Completer} {buffer : Buffer} {rule : String} {chart : Chart}

theorem checkCaret_eq_ok (checked : checkCaret buffer = .ok ()) :
    ∃ after, buffer.content = buffer.beforeCaret ++ after ∧
      buffer.beforeCaret.utf8ByteSize = buffer.caret := by
  dsimp only [checkCaret] at checked
  split at checked
  · cases checked
  · split at checked
    · cases checked
    · rename_i found
      rw [Bool.not_eq_true, Option.isNone_eq_false_iff, Option.isSome_iff_exists] at found
      obtain ⟨before, found⟩ := found
      rw [Buffer.beforeCaret, found, Option.getD_some]
      exact Text.before?_eq_some_iff.mp found

/-- A chart is made for the tokens of the text before a caret that stands between characters. -/
theorem chart_eq_ok (charted : completer.chart buffer rule = .ok chart) :
    ∃ start tokens, completer.grammar.findRule rule = .ok start ∧ checkCaret buffer = .ok () ∧
      completer.prefixTokens buffer.beforeCaret = .ok tokens ∧
      chart = .parse completer.grammar start tokens := by
  unfold Completer.chart at charted
  cases found : completer.grammar.findRule rule with
  | error failure => rw [found] at charted; cases charted
  | ok start =>
    cases checked : checkCaret buffer with
    | error failure => rw [found, checked] at charted; cases charted
    | ok =>
      cases lexed : completer.prefixTokens buffer.beforeCaret with
      | error failure => rw [found, checked, lexed] at charted; cases charted
      | ok tokens =>
        rw [found, checked, lexed] at charted
        cases charted
        exact ⟨start, tokens, rfl, rfl, rfl, rfl⟩

/-- What is typed at a position is the last part of the text before the caret. -/
theorem typedAt_suffix (checked : checkCaret buffer = .ok ()) (tokens : List Token) (position : Nat) :
    ∃ front, buffer.beforeCaret = front ++ typedAt buffer tokens position := by
  have trimmed : ∀ {text : String}, (∃ front, buffer.beforeCaret = front ++ text) →
      ∃ front, buffer.beforeCaret = front ++ Text.trimStart text := by
    intro text given
    obtain ⟨front, whole⟩ := given
    obtain ⟨blanks, split⟩ := Text.trimStart_suffix text
    exact ⟨front ++ blanks, by rw [String.append_assoc, ← split, whole]⟩
  apply trimmed
  cases position with
  | zero => exact ⟨"", by simp⟩
  | succ before =>
    cases found : (tokens[before]?).bind fun token =>
        Text.between? buffer.content token.stop buffer.caret with
    | none => exact ⟨buffer.beforeCaret, by simp [found]⟩
    | some typed =>
      obtain ⟨token, _, between⟩ := Option.bind_eq_some_iff.mp found
      obtain ⟨left, right, whole, size, total⟩ := Text.between?_eq_some_iff.mp between
      obtain ⟨after, split, caret⟩ := checkCaret_eq_ok checked
      have sameSize : (left ++ typed).utf8ByteSize = buffer.beforeCaret.utf8ByteSize := by
        rw [String.utf8ByteSize_append, size, total, caret]
      obtain ⟨middle, joined, _⟩ := Text.append_eq_append_of_le (whole.symm.trans split)
        (Nat.le_of_eq sameSize)
      have empty : middle = "" := by
        rw [joined] at sameSize
        simp only [String.utf8ByteSize_append] at sameSize
        exact String.utf8ByteSize_eq_zero_iff.mp (by omega)
      exact ⟨left, by simp [found, joined, empty]⟩

theorem mem_inquiriesAt {position : Nat} {inquiry : Inquiry} :
    inquiry ∈ completer.inquiriesAt buffer chart position ↔
      ∃ id ∈ chart.expectingTerminal position, ∃ path ∈ chart.paths completer.limits.maxPaths id,
        inquiry = ⟨position, typedAt buffer chart.tokens position,
          Site.chain completer.grammar 0 path⟩ := by
  simp only [inquiriesAt, List.mem_flatMap, List.mem_map, eq_comm]

/-- Only the last position of a chart and the one before it are looked at. -/
theorem mem_inquiries {inquiry : Inquiry} (asked : inquiry ∈ completer.inquiries buffer chart) :
    ∃ position, (position = chart.positions - 1 ∨ position + 1 = chart.positions - 1) ∧
      inquiry ∈ completer.inquiriesAt buffer chart position := by
  rcases List.mem_append.mp asked with last | before
  · exact ⟨_, .inl rfl, last⟩
  · split at before
    · cases before
    · exact ⟨chart.positions - 1 - 1, .inr (by omega), before⟩

/-- What a proposal replaces begins with what has been typed at its site, and ends at the caret or where
the text ends that its element would replace. -/
structure Proposes (completer : Completer) (buffer : Buffer) (offer : Offer) (proposal : Proposal) :
    Prop where
  site : proposal.site = offer.site
  suggested : proposal.suggestion ∈ offer.suggestions
  start : proposal.start = buffer.caret - offer.typed.utf8ByteSize
  stop : proposal.stop = buffer.caret ∨ ∃ reach, proposal.stop = max reach buffer.caret ∧
    completer.reachEnd? buffer.content proposal.start offer.site.element = some reach

theorem proposes_of_mem {tokens : List Token} {offer : Offer} {budget : Nat} {proposal : Proposal}
    (listed : proposal ∈ (completer.proposalsOf buffer tokens offer budget).1) :
    Proposes completer buffer offer proposal := by
  rw [proposalsOf_eq] at listed
  obtain ⟨suggestion, kept, rfl⟩ := List.mem_map.mp listed
  exact ⟨rfl, mem_of_mem_keptOf kept, rfl, completer.stopOf_cases buffer offer budget⟩

theorem mem_proposalsOfAll {tokens : List Token} {offers : List Offer} {budget : Nat}
    {proposal : Proposal}
    (listed : proposal ∈ (completer.proposalsOfAll buffer tokens offers budget).1) :
    ∃ offer ∈ offers, Proposes completer buffer offer proposal := by
  induction offers generalizing budget with
  | nil => cases listed
  | cons offer offers ih =>
    rcases List.mem_append.mp listed with first | others
    · exact ⟨offer, List.mem_cons_self, proposes_of_mem first⟩
    · obtain ⟨other, among, proposes⟩ := ih others
      exact ⟨other, List.mem_cons_of_mem _ among, proposes⟩

/-- All that a proposal of a request comes from. -/
structure Origin (completer : Completer) (buffer : Buffer) (chart : Chart) (proposal : Proposal)
    (position : Nat) (id : NodeId) (path : Path) : Prop where
  within : position ≤ chart.positions - 1
  expected : id ∈ chart.expectingTerminal position
  climbed : path ∈ chart.paths completer.limits.maxPaths id
  site : proposal.site ∈ Site.chain completer.grammar 0 path
  proposes : ∃ offer, Proposes completer buffer offer proposal ∧ offer.position = position ∧
    offer.typed = typedAt buffer chart.tokens position ∧
    completer.source offer.site offer.typed = .ok offer.suggestions

theorem collect_eq_ok {collected : List Proposal × Nat}
    (found : completer.collect buffer rule = .ok collected) :
    ∃ chart, completer.chart buffer rule = .ok chart ∧
      collected = completer.proposalsOfAll buffer chart.tokens
        ((completer.inquiries buffer chart).filterMap (·.offer? completer.source))
        completer.limits.rereads := by
  obtain ⟨chart, charted, rfl⟩ := map_eq_ok_iff.mp found
  exact ⟨chart, charted, rfl⟩

/-- A proposal for what the source offers stems from the position of the offer. -/
theorem origin_of_offered {offer : Offer} {proposal : Proposal}
    (offered : offer ∈ (completer.inquiries buffer chart).filterMap (·.offer? completer.source))
    (proposes : Proposes completer buffer offer proposal) :
    (offer.position = chart.positions - 1 ∨ offer.position + 1 = chart.positions - 1) ∧
      ∃ id path, Origin completer buffer chart proposal offer.position id path := by
  obtain ⟨inquiry, asked, offered⟩ := List.mem_filterMap.mp offered
  obtain ⟨site, place, typed, said⟩ := Inquiry.offer?_eq_some offered
  obtain ⟨position, near, asked⟩ := mem_inquiries asked
  obtain ⟨id, expected, path, onPath, rfl⟩ := mem_inquiriesAt.mp asked
  rw [place]
  refine ⟨near, id, path, ?_, expected, onPath, by rw [proposes.site]; exact site, offer, proposes, place,
    typed, said⟩
  dsimp only
  omega

theorem origin_of_mem {collected : List Proposal × Nat} {proposal : Proposal}
    (charted : completer.chart buffer rule = .ok chart)
    (found : completer.collect buffer rule = .ok collected) (listed : proposal ∈ collected.1) :
    ∃ position id path, Origin completer buffer chart proposal position id path := by
  obtain ⟨chart', charted', rfl⟩ := collect_eq_ok found
  rw [charted] at charted'
  cases charted'
  obtain ⟨offer, offered, proposes⟩ := mem_proposalsOfAll listed
  exact ⟨offer.position, (origin_of_offered offered proposes).2⟩

theorem proposals_of_chart {found : List Proposal} (charted : completer.chart buffer rule = .ok chart)
    (proposed : completer.proposals buffer rule = .ok found) :
    found = (completer.proposalsOfAll buffer chart.tokens
      ((completer.inquiries buffer chart).filterMap (·.offer? completer.source))
      completer.limits.rereads).1 := by
  rw [proposals, collect, charted] at proposed
  exact (Except.ok.inj proposed).symm

/-- What the source offers at a site, it has been asked about. -/
theorem mem_questions {offer : Offer} (charted : completer.chart buffer rule = .ok chart)
    (offered : offer ∈ (completer.inquiries buffer chart).filterMap (·.offer? completer.source)) :
    (offer.site, offer.typed) ∈ completer.questions buffer rule := by
  obtain ⟨inquiry, asked, offered⟩ := List.mem_filterMap.mp offered
  rw [questions, charted]
  refine List.mem_flatMap.mpr ⟨inquiry, asked, List.mem_map.mpr ⟨offer.site, ?_, ?_⟩⟩
  · exact Inquiry.mem_askedFrom offered
  · rw [(Inquiry.offer?_eq_some offered).2.2.1]

/-- A source is asked about a site with what stands between the start of a proposal and the caret. -/
theorem between?_of_offered {offer : Offer} {proposal : Proposal}
    (charted : completer.chart buffer rule = .ok chart)
    (offered : offer ∈ (completer.inquiries buffer chart).filterMap (·.offer? completer.source))
    (proposes : Proposes completer buffer offer proposal) :
    Text.between? buffer.content proposal.start buffer.caret = some offer.typed := by
  obtain ⟨_, _, _, checked, _, _⟩ := chart_eq_ok charted
  obtain ⟨after, whole, size⟩ := checkCaret_eq_ok checked
  obtain ⟨inquiry, asked, offered⟩ := List.mem_filterMap.mp offered
  obtain ⟨position, _, asked⟩ := mem_inquiries asked
  obtain ⟨_, _, _, _, rfl⟩ := mem_inquiriesAt.mp asked
  have typed : offer.typed = typedAt buffer chart.tokens position :=
    (Inquiry.offer?_eq_some offered).2.2.1
  obtain ⟨front, split⟩ := typedAt_suffix checked chart.tokens position
  rw [← typed] at split
  have start : proposal.start = front.utf8ByteSize := by
    rw [proposes.start, ← size, split, String.utf8ByteSize_append, Nat.add_sub_cancel]
  rw [start, whole, ← size, split]
  exact Text.between?_append _ _ _

theorem proposals_eq_ok {found : List Proposal} (proposed : completer.proposals buffer rule = .ok found) :
    ∃ chart, completer.chart buffer rule = .ok chart ∧ ∀ proposal ∈ found,
      ∃ position id path, Origin completer buffer chart proposal position id path := by
  obtain ⟨pair, collected, rfl⟩ := map_eq_ok_iff.mp proposed
  obtain ⟨chart, charted, _⟩ := collect_eq_ok collected
  exact ⟨chart, charted, fun proposal listed => origin_of_mem charted collected listed⟩

/-- Whatever a lexer says, a proposal begins between two characters up to the caret, and ends no earlier
than the caret. -/
theorem Origin.range {proposal : Proposal} {position : Nat} {id : NodeId} {path : Path}
    (charted : completer.chart buffer rule = .ok chart)
    (origin : Origin completer buffer chart proposal position id path) :
    Text.IsBoundary buffer.content proposal.start ∧ proposal.start ≤ buffer.caret ∧
      buffer.caret ≤ proposal.stop := by
  obtain ⟨_, _, _, checked, _, _⟩ := chart_eq_ok charted
  obtain ⟨offer, proposes, _, typed, _⟩ := origin.proposes
  obtain ⟨after, whole, size⟩ := checkCaret_eq_ok checked
  obtain ⟨front, split⟩ := typedAt_suffix checked chart.tokens position
  rw [← typed] at split
  have start : proposal.start = front.utf8ByteSize := by
    rw [proposes.start, ← size, split, String.utf8ByteSize_append, Nat.add_sub_cancel]
  refine ⟨?_, ?_, ?_⟩
  · rw [start, whole, split, String.append_assoc]
    exact .of_append _ _
  · rw [start, ← size, split, String.utf8ByteSize_append]
    exact Nat.le_add_right _ _
  · rcases proposes.stop with atCaret | ⟨reach, beyond, _⟩
    · exact Nat.le_of_eq atCaret.symm
    · rw [beyond]
      exact Nat.le_max_right _ _

end Completer

end Typeahead
