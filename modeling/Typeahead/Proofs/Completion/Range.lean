import Typeahead.Grammar.Sample
import Typeahead.Proofs.Chart.Climbing
import Typeahead.Proofs.Completion.Agreement
import Typeahead.Proofs.Lexer.Tiling

/-!
Edits stay in range: with a lexer whose tokens lie in the text, all that a request cuts, looks up and
subtracts is there, and every edit replaces a piece of the text around the caret.
-/

namespace Typeahead

theorem mem_of_mem_allTokens {answers : List Answer} {tokens : List Token} {token : Token}
    (read : allTokens answers = .ok tokens) (listed : token ∈ tokens) : .ok token ∈ answers := by
  induction answers generalizing tokens with
  | nil =>
    cases read
    cases listed
  | cons answer answers ih =>
    cases answer with
    | error failure => cases read
    | ok first =>
      rw [allTokens] at read
      obtain ⟨rest, others, rfl⟩ := map_eq_ok_iff.mp read
      rcases List.mem_cons.mp listed with rfl | listed
      · exact List.mem_cons_self
      · exact List.mem_cons_of_mem _ (ih others listed)

namespace Completer

variable {completer : Completer} {buffer : Buffer} {rule : String}

theorem reachEnd?_isBoundary (inBounds : completer.lexer.InBounds) {content : String} {start reach : Nat}
    {element : Element} (found : completer.reachEnd? content start element = some reach) :
    Text.IsBoundary content reach := by
  obtain ⟨rest, cut, found⟩ := Option.bind_eq_some_iff.mp found
  obtain ⟨items, read, found⟩ := Option.bind_eq_some_iff.mp found
  obtain ⟨tokens, all, found⟩ := Option.bind_eq_some_iff.mp found
  obtain ⟨first, _, found⟩ := Option.bind_eq_some_iff.mp found
  split at found
  · obtain ⟨last, ends, found⟩ := Option.bind_eq_some_iff.mp found
    cases found
    obtain ⟨front, rfl, rfl⟩ := Text.after?_eq_some_iff.mp cut
    have listed : last ∈ tokens := List.mem_of_mem_take (List.mem_of_getLast? ends)
    have among : .ok last ∈ items :=
      List.mem_of_mem_take (mem_of_mem_allTokens (eq_ok_of_toOption all) listed)
    exact (inBounds rest items last (eq_ok_of_toOption read) among).2.append_left front
  · cases found

theorem proposals_fit (inBounds : completer.lexer.InBounds) {proposals : List Proposal}
    (proposed : completer.proposals buffer rule = .ok proposals) :
    ∀ proposal ∈ proposals, proposal.Fits buffer.content := by
  intro proposal listed
  obtain ⟨chart, charted, origins⟩ := proposals_eq_ok proposed
  obtain ⟨position, id, path, origin⟩ := origins proposal listed
  obtain ⟨start, before, behind⟩ := origin.range charted
  obtain ⟨_, _, _, checked, _, _⟩ := chart_eq_ok charted
  obtain ⟨after, whole, size⟩ := checkCaret_eq_ok checked
  obtain ⟨offer, proposes, _⟩ := origin.proposes
  have caret : Text.IsBoundary buffer.content buffer.caret := ⟨_, after, whole, size⟩
  refine ⟨Nat.le_trans before behind, start, ?_⟩
  rcases proposes.stop with atCaret | ⟨reach, beyond, reached⟩
  · rwa [atCaret]
  · rw [beyond]
    exact (reachEnd?_isBoundary inBounds reached).of_max caret

end Completer

/-- An edit replaces a piece of the text around the caret, and leaves the caret no earlier than that
begins. -/
structure Edit.InRange (edit : Edit) (buffer : Buffer) : Prop where
  start_le : edit.start ≤ buffer.caret
  le_stop : buffer.caret ≤ edit.stop
  stop_le : edit.stop ≤ buffer.content.utf8ByteSize
  start : Text.IsBoundary buffer.content edit.start
  stop : Text.IsBoundary buffer.content edit.stop
  result : ∃ left middle right, buffer.content = left ++ middle ++ right ∧
    left.utf8ByteSize = edit.start ∧ (left ++ middle).utf8ByteSize = edit.stop ∧
    (edit.apply buffer).content = left ++ edit.text ++ right
  start_le_caret : edit.start ≤ (edit.apply buffer).caret
  caret_le : (edit.apply buffer).caret ≤ (edit.apply buffer).content.utf8ByteSize

/-- A source marks places between the characters of its texts. -/
def Source.MarksBoundaries (source : Source) : Prop :=
  ∀ site typed suggestions, source site typed = .ok suggestions → ∀ suggestion ∈ suggestions,
    ∀ caret, suggestion.caret = some caret → Text.IsBoundary suggestion.content caret

namespace Completer

variable {completer : Completer} {buffer : Buffer} {rule : String} {group : ProposalGroup} {edit : Edit}

theorem EditsFor.result_eq (edits : EditsFor completer buffer group edit)
    (fits : group.first.Fits buffer.content) : ∃ left middle right,
      buffer.content = left ++ middle ++ right ∧ left.utf8ByteSize = edit.start ∧
        (left ++ middle).utf8ByteSize = edit.stop ∧
        (edit.apply buffer).content = left ++ edit.text ++ right := by
  obtain ⟨left, middle, right, whole, start, stop⟩ := fits.parts
  refine ⟨left, middle, right, whole, by rw [edits.start, start], by rw [edits.stop, stop], ?_⟩
  rw [Edit.apply, edits.start, edits.stop, start, stop, whole, Text.splice_append]

theorem EditsFor.caret_eq (edits : EditsFor completer buffer group edit) :
    (∃ caret, group.first.suggestion.caret = some caret ∧
      caret < group.first.suggestion.content.utf8ByteSize ∧ edit.caret = edit.start + caret) ∨
    Text.IsBoundary (edit.apply buffer).content edit.caret ∧
      edit.start + edit.text.utf8ByteSize ≤ edit.caret := by
  rcases edits.caret with ⟨caret, marked, inside, same⟩ | ⟨right, skipped, behind, boundary, same⟩
  · exact .inl ⟨caret, marked, inside, by rw [same, edits.start]⟩
  · obtain ⟨left, whole, size⟩ := Text.after?_eq_some_iff.mp behind
    refine .inr ⟨?_, by rw [same]; exact Nat.le_add_right _ _⟩
    rw [same, whole, ← size]
    exact boundary.append_left left

theorem EditsFor.inRange (edits : EditsFor completer buffer group edit)
    (fits : group.first.Fits buffer.content) (before : group.first.start ≤ buffer.caret)
    (behind : buffer.caret ≤ group.first.stop) : edit.InRange buffer := by
  have stop : Text.IsBoundary buffer.content edit.stop := edits.stop ▸ fits.stop
  have result := edits.result_eq fits
  have carets : edit.start ≤ edit.caret ∧
      edit.caret ≤ (edit.apply buffer).content.utf8ByteSize := by
    rcases edits.caret_eq with ⟨caret, _, inside, same⟩ | ⟨boundary, beyond⟩
    · obtain ⟨left, middle, right, _, start, _, whole⟩ := result
      obtain ⟨tail, _, text⟩ := edits.text
      rw [same, whole, text]
      simp only [String.utf8ByteSize_append]
      omega
    · exact ⟨by omega, boundary.le⟩
  exact {
    start_le := edits.start ▸ before
    le_stop := edits.stop ▸ behind
    stop_le := stop.le
    start := edits.start ▸ fits.start
    stop
    result
    start_le_caret := carets.1
    caret_le := carets.2 }

theorem EditsFor.caret_isBoundary (edits : EditsFor completer buffer group edit)
    (fits : group.first.Fits buffer.content)
    (marks : ∀ caret, group.first.suggestion.caret = some caret →
      Text.IsBoundary group.first.suggestion.content caret) :
    Text.IsBoundary (edit.apply buffer).content (edit.apply buffer).caret := by
  rcases edits.caret_eq with ⟨caret, marked, _, same⟩ | ⟨boundary, _⟩
  · obtain ⟨left, middle, right, _, start, _, whole⟩ := edits.result_eq fits
    obtain ⟨tail, _, text⟩ := edits.text
    have place : (edit.apply buffer).caret = left.utf8ByteSize + caret := by
      rw [start]
      exact same
    rw [place, whole, text]
    exact (((marks caret marked).append_right tail).append_left left).append_right right
  · exact boundary

/-- An edit that is answered stems from a group of proposals. -/
theorem editsFor_of_mem {proposals : List Proposal} {budget : Nat}
    (fits : ∀ proposal ∈ proposals, proposal.Fits buffer.content)
    (listed : edit ∈ dropSeen buffer [buffer.content] (completer.editsOf buffer
      (ProposalGroup.ofProposals buffer.content proposals) budget)) :
    ∃ group ∈ ProposalGroup.ofProposals buffer.content proposals,
      EditsFor completer buffer group edit := by
  have all : List.Forall₂ (EditsFor completer buffer) _ _ :=
    editsOf_editsFor _ (ProposalGroup.ofProposals_fits fits) budget
  have among := (dropSeen_sublist _ _).mem listed
  obtain ⟨place, inside, rfl⟩ := List.mem_iff_getElem.mp among
  have same := all.length_eq
  exact ⟨_, List.getElem_mem (by rwa [same]), List.Forall₂.get all (by rwa [same]) inside⟩

/-- The levels around a proposal's site are elements of the grammar, each at its place. -/
theorem levels_placed {proposals : List Proposal}
    (proposed : completer.proposals buffer rule = .ok proposals) {proposal : Proposal}
    (listed : proposal ∈ proposals) {level : Level}
    (around : level ∈ proposal.site.level :: proposal.site.enclosing) :
    completer.grammar.element? level.item.rule level.item.alternative level.item.index =
      some level.element := by
  obtain ⟨chart, charted, origins⟩ := proposals_eq_ok proposed
  obtain ⟨position, id, path, origin⟩ := origins proposal listed
  obtain ⟨start, tokens, _, _, _, rfl⟩ := chart_eq_ok charted
  obtain ⟨_, above, _, here⟩ := Site.mem_chain origin.site
  obtain ⟨ascent, _⟩ := Chart.paths_ascend origin.climbed
  exact ((ascent.drop here).stands_of_mem around).placed

/-- A request stays in range: it makes every cut, look-up and difference without a fault, and every edit
in its answer is in range. This holds for all lexers whose tokens lie in the text, as those of a lexicon
do. -/
theorem request_inRange :
    (∀ lexicon : Lexicon, lexicon.lexer.InBounds) ∧
    ∀ (completer : Completer) (buffer : Buffer) (rule : String), completer.lexer.InBounds →
      Checked.proposals completer buffer rule = .ok (completer.proposals buffer rule) ∧
      Checked.complete completer buffer rule = .ok (completer.complete buffer rule) ∧
      (∀ proposals, completer.proposals buffer rule = .ok proposals → ∀ proposal ∈ proposals,
        ∀ level ∈ proposal.site.level :: proposal.site.enclosing,
          completer.grammar.element? level.item.rule level.item.alternative level.item.index =
            some level.element) ∧
      ∀ edits, completer.complete buffer rule = .ok edits → ∀ edit ∈ edits,
        edit.InRange buffer ∧ (completer.source.MarksBoundaries →
          Text.IsBoundary (edit.apply buffer).content (edit.apply buffer).caret) := by
  refine ⟨Lexicon.lexer_inBounds, fun completer buffer rule inBounds => ?_⟩
  refine ⟨Checked.proposals_eq completer buffer rule,
    Checked.complete_eq fun _ proposed => proposals_fit inBounds proposed,
    fun _ proposed _ listed _ around => levels_placed proposed listed around, ?_⟩
  intro edits answered edit listed
  obtain ⟨proposals, budget, proposed, rfl⟩ := complete_eq_ok answered
  have fits := proposals_fit inBounds proposed
  obtain ⟨group, grouped, editsFor⟩ := editsFor_of_mem fits listed
  have among : group.first ∈ proposals :=
    ((ProposalGroup.mem_members grouped).mp List.mem_cons_self).1
  obtain ⟨chart, charted, origins⟩ := proposals_eq_ok proposed
  obtain ⟨position, id, path, origin⟩ := origins group.first among
  obtain ⟨_, before, behind⟩ := origin.range charted
  refine ⟨editsFor.inRange (fits _ among) before behind, fun marks => ?_⟩
  obtain ⟨offer, proposes, _, _, said⟩ := origin.proposes
  exact editsFor.caret_isBoundary (fits _ among)
    (marks offer.site offer.typed offer.suggestions said _ proposes.suggested)

end Completer

namespace Sample

/-- Two functions, and the literals as they are. -/
def functions : Source := fun site _ =>
  match site.element.symbol with
  | .token "NAME" _ => .ok [{ content := "sin" }, { content := "sqrt", description := some "root" }]
  | .literal text _ => .ok [{ content := text }]
  | _ => .ok []

def callCompleter : Completer where
  grammar := callGrammar
  lexer := Lexicon.lexer { vocabulary := callVocabulary, identifier := some ⟨1⟩ }
  source := functions

end Sample

namespace Completer

theorem request_inRange_call : Sample.callCompleter.lexer.InBounds ∧
    Sample.callCompleter.complete (.atEnd "s") "call" = .ok
      [⟨1, 1, "(", 2, none⟩, ⟨0, 1, "sin(", 4, none⟩, ⟨0, 1, "sqrt(", 5, some "root"⟩] ∧
    Edit.InRange ⟨0, 1, "sqrt(", 5, some "root"⟩ (.atEnd "s") := by
  have inBounds : Sample.callCompleter.lexer.InBounds := request_inRange.1 _
  have answered : Sample.callCompleter.complete (.atEnd "s") "call" = .ok
      [⟨1, 1, "(", 2, none⟩, ⟨0, 1, "sin(", 4, none⟩, ⟨0, 1, "sqrt(", 5, some "root"⟩] := by
    decide +kernel
  have inRange := (request_inRange.2 Sample.callCompleter (.atEnd "s") "call" inBounds).2.2.2 _ answered
  exact ⟨inBounds, answered, (inRange _ (by simp)).1⟩

end Completer

end Typeahead
