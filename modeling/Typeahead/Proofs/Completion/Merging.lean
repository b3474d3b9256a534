import Typeahead.Proofs.Completion.Range

/-!
What becomes of the proposals of a request: those that lead to one text share one edit, and no two edits
lead to one text.
-/

namespace Typeahead

section Lists

variable {α β κ : Type}

/-- Distinct keys can be mapped to any values. -/
theorem exists_map_eq [DecidableEq κ] {keys : List κ} {values : List β} (otherwise : β)
    (distinct : keys.Nodup) (lengths : keys.length = values.length) :
    ∃ final : κ → β, keys.map final = values := by
  induction keys generalizing values with
  | nil => exact ⟨fun _ => otherwise, (List.eq_nil_of_length_eq_zero lengths.symm).symm⟩
  | cons key keys ih =>
    cases values with
    | nil => cases lengths
    | cons value values =>
      rw [List.nodup_cons] at distinct
      obtain ⟨final, same⟩ := ih distinct.2 (Nat.succ.inj lengths)
      refine ⟨Function.update final key value, ?_⟩
      rw [List.map_cons, Function.update_self, ← same]
      refine congrArg _ (List.map_congr_left fun other listed => Function.update_of_ne ?_ _ _)
      rintro rfl
      exact distinct.1 listed

theorem forall₂_and {first second : α → β → Prop} {left : List α} {right : List β}
    (firsts : List.Forall₂ first left right) (seconds : List.Forall₂ second left right) :
    List.Forall₂ (fun x y => first x y ∧ second x y) left right := by
  induction firsts with
  | nil => exact .nil
  | cons here _ ih =>
    cases seconds with
    | cons also others => exact .cons ⟨here, also⟩ (ih others)

theorem sublistForall₂_of_sublist {related : α → β → Prop} {other : β → α → Prop} {left : List α}
    {right kept : List β} (pairs : List.Forall₂ related left right) (part : kept.Sublist right)
    (relates : ∀ x ∈ left, ∀ y, related x y → other y x) : List.SublistForall₂ other kept left := by
  induction pairs generalizing kept with
  | nil =>
    rw [List.sublist_nil.mp part]
    exact .nil
  | cons here _ ih =>
    have others := fun x listed => relates x (List.mem_cons_of_mem _ listed)
    cases part with
    | cons _ part => exact .cons_right (ih part others)
    | cons_cons _ part => exact .cons (relates _ List.mem_cons_self _ here) (ih part others)

end Lists

namespace Completer

variable {completer : Completer} {buffer : Buffer} {rule : String} {edits : List Edit}

def results (buffer : Buffer) (edits : List Edit) : List String :=
  edits.map fun edit => (edit.apply buffer).content

theorem dropSeen_results (seen : List String) (edits : List Edit) :
    (results buffer (dropSeen buffer seen edits)).Nodup ∧
      ∀ text, text ∈ results buffer (dropSeen buffer seen edits) ↔
        text ∈ results buffer edits ∧ text ∉ seen := by
  induction edits generalizing seen with
  | nil => exact ⟨.nil, fun text => by simp [results, dropSeen]⟩
  | cons edit edits ih =>
    simp only [dropSeen]
    split
    · rename_i old
      have old := List.contains_iff_mem.mp old
      refine ⟨(ih seen).1, fun text => ?_⟩
      rw [(ih seen).2, results, results, List.map_cons, List.mem_cons]
      constructor
      · exact fun given => ⟨.inr given.1, given.2⟩
      · intro given
        obtain ⟨rfl | listed, new⟩ := given
        · exact (new old).elim
        · exact ⟨listed, new⟩
    · rename_i new
      have new := mt List.contains_iff_mem.mpr new
      obtain ⟨distinct, members⟩ := ih ((edit.apply buffer).content :: seen)
      have kept : (edit.apply buffer).content ∉
          results buffer (dropSeen buffer ((edit.apply buffer).content :: seen) edits) :=
        fun listed => ((members _).mp listed).2 List.mem_cons_self
      refine ⟨List.nodup_cons.mpr ⟨kept, distinct⟩, fun text => ?_⟩
      rw [results, List.map_cons, List.mem_cons, results, List.map_cons, List.mem_cons]
      by_cases here : text = (edit.apply buffer).content
      · simp [here, new]
      · rw [or_iff_right here, or_iff_right here]
        have others := members text
        rw [List.mem_cons, not_or, and_iff_right here] at others
        exact others

/-- An edit does what a proposal says, and may put in the literals that must follow. -/
structure Carries (proposal : Proposal) (edit : Edit) : Prop where
  start : edit.start = proposal.start
  stop : edit.stop = proposal.stop
  description : edit.description = proposal.suggestion.description
  text : ∃ tail, (tail = "" ∨ Appended proposal.site.mandatoryAfter tail) ∧
    edit.text = proposal.suggestion.content ++ tail

theorem proposals_fit_of_complete (answered : Checked.complete completer buffer rule = .ok (.ok edits)) :
    ∃ proposals, completer.proposals buffer rule = .ok proposals ∧
      ∀ proposal ∈ proposals, proposal.Fits buffer.content := by
  obtain ⟨proposals, proposed, boundaries⟩ := Checked.boundaries_of_complete answered
  obtain ⟨chart, charted, origins⟩ := proposals_eq_ok proposed
  refine ⟨proposals, proposed, fun proposal listed => ?_⟩
  obtain ⟨position, id, path, origin⟩ := origins proposal listed
  obtain ⟨start, before, behind⟩ := origin.range charted
  exact ⟨Nat.le_trans before behind, start, (boundaries proposal listed).2⟩

section Groups

variable {proposals : List Proposal} {budget : Nat} {final : String → String}

/-- The final text of each text that proposals lead to is that of the edit of its group. -/
def Settles (completer : Completer) (buffer : Buffer) (final : String → String)
    (group : ProposalGroup) (edit : Edit) : Prop :=
  EditsFor completer buffer group edit ∧ final group.text = (edit.apply buffer).content

theorem exists_settles (completer : Completer)
    (fits : ∀ proposal ∈ proposals, proposal.Fits buffer.content) (budget : Nat) :
    ∃ final, List.Forall₂ (Settles completer buffer final)
      (ProposalGroup.ofProposals buffer.content proposals)
      (completer.editsOf buffer (ProposalGroup.ofProposals buffer.content proposals) budget) := by
  have edits : List.Forall₂ (EditsFor completer buffer)
      (ProposalGroup.ofProposals buffer.content proposals)
      (completer.editsOf buffer (ProposalGroup.ofProposals buffer.content proposals) budget) :=
    editsOf_editsFor _ (ProposalGroup.ofProposals_fits fits) budget
  have lengths : ((ProposalGroup.ofProposals buffer.content proposals).map
      ProposalGroup.text).length = (results buffer (completer.editsOf buffer
        (ProposalGroup.ofProposals buffer.content proposals) budget)).length := by
    rw [List.length_map, edits.length_eq, results, List.length_map]
  obtain ⟨final, same⟩ := exists_map_eq ""
    (ProposalGroup.ofProposals_partition buffer.content proposals).distinct lengths
  refine ⟨final, forall₂_and edits ?_⟩
  rwa [results, List.map_map, ← List.forall₂_eq_eq_eq, List.forall₂_map_left_iff,
    List.forall₂_map_right_iff] at same

theorem settled_of_mem {edits : List Edit}
    (settles : List.Forall₂ (Settles completer buffer final)
      (ProposalGroup.ofProposals buffer.content proposals) edits)
    {proposal : Proposal} (listed : proposal ∈ proposals) :
    final (proposal.result buffer.content) ∈ results buffer edits ∧
      (final (proposal.result buffer.content) = proposal.result buffer.content ∨
        ∀ other ∈ proposals, other.result buffer.content = proposal.result buffer.content →
          completer.grown? buffer.content other =
            some (final (proposal.result buffer.content))) := by
  have partition := ProposalGroup.ofProposals_partition buffer.content proposals
  obtain ⟨group, grouped, text⟩ := List.mem_map.mp (partition.mem_texts.mpr
    (List.mem_map_of_mem listed))
  obtain ⟨place, inside, rfl⟩ := List.mem_iff_getElem.mp grouped
  have insideEdits : place < edits.length := by rwa [← settles.length_eq]
  obtain ⟨editsFor, result⟩ : Settles completer buffer final _ edits[place] :=
    settles.get inside insideEdits
  rw [List.get_eq_getElem, text] at result
  refine ⟨List.mem_map.mpr ⟨_, List.getElem_mem insideEdits, result.symm⟩, ?_⟩
  rw [result, ← text]
  refine editsFor.result.imp_right fun agreed other among same => ?_
  exact agreed other ((ProposalGroup.mem_members grouped).mpr ⟨among, same⟩)

theorem carries_of_settles {group : ProposalGroup}
    (grouped : group ∈ ProposalGroup.ofProposals buffer.content proposals) {edit : Edit}
    (settles : Settles completer buffer final group edit) :
    ∃ first, proposals.find? (fun proposal => proposal.result buffer.content = group.text) =
        some first ∧ Carries first edit ∧ (edit.apply buffer).content = final group.text := by
  obtain ⟨editsFor, result⟩ := settles
  exact ⟨group.first, ProposalGroup.find?_text grouped,
    ⟨editsFor.start, editsFor.stop, editsFor.description, editsFor.text⟩, result.symm⟩

theorem existsUnique_of_mem_results {edits : List Edit} (distinct : (results buffer edits).Nodup)
    {text : String} (listed : text ∈ results buffer edits) :
    ∃! edit, edit ∈ edits ∧ (edit.apply buffer).content = text := by
  obtain ⟨edit, among, same⟩ := List.mem_map.mp listed
  refine ⟨edit, ⟨among, same⟩, fun other given => ?_⟩
  exact List.inj_on_of_nodup_map distinct given.1 among (given.2.trans same.symm)

end Groups

/-- Proposals are merged, and none is lost, invented or repeated. What they lead to, `final` says for
each text that some of them put in as they are. -/
theorem complete_merges (answered : Checked.complete completer buffer rule = .ok (.ok edits)) :
    ∃ proposals, Checked.proposals completer buffer rule = .ok (.ok proposals) ∧
      (results buffer edits).Nodup ∧ buffer.content ∉ results buffer edits ∧
      ∃ final : String → String,
        (∀ proposal ∈ proposals,
          (final (proposal.result buffer.content) = buffer.content ∨
            ∃! edit, edit ∈ edits ∧
              (edit.apply buffer).content = final (proposal.result buffer.content)) ∧
          (final (proposal.result buffer.content) = proposal.result buffer.content ∨
            ∀ other ∈ proposals, other.result buffer.content = proposal.result buffer.content →
              completer.grown? buffer.content other =
                some (final (proposal.result buffer.content)))) ∧
        List.SublistForall₂
          (fun edit text => ∃ first,
            proposals.find? (fun proposal => proposal.result buffer.content = text) = some first ∧
              Carries first edit ∧ (edit.apply buffer).content = final text)
          edits (proposals.map fun proposal => proposal.result buffer.content).eraseDups := by
  obtain ⟨proposals, proposed, fits⟩ := proposals_fit_of_complete answered
  have plain : completer.complete buffer rule = .ok edits := by
    have same : Checked.complete completer buffer rule = .ok (completer.complete buffer rule) := by
      refine Checked.complete_eq fun found foundProposals => ?_
      rw [proposed] at foundProposals
      cases foundProposals
      exact fits
    rw [same] at answered
    exact Except.ok.inj answered
  obtain ⟨found, budget, foundProposals, rfl⟩ := complete_eq_ok plain
  rw [proposed] at foundProposals
  cases foundProposals
  have partition := ProposalGroup.ofProposals_partition buffer.content proposals
  obtain ⟨final, settles⟩ := exists_settles completer fits budget
  obtain ⟨distinct, kept⟩ := dropSeen_results [buffer.content]
    (completer.editsOf buffer (ProposalGroup.ofProposals buffer.content proposals) budget)
  have answer : Checked.proposals completer buffer rule = .ok (.ok proposals) := by
    rw [Checked.proposals_eq, proposed]
  refine ⟨proposals, answer, distinct, fun listed => ((kept _).mp listed).2 List.mem_cons_self, final,
    fun proposal listed => ?_, ?_⟩
  · obtain ⟨among, agreed⟩ := settled_of_mem settles listed
    refine ⟨?_, agreed⟩
    by_cases unchanged : final (proposal.result buffer.content) = buffer.content
    · exact .inl unchanged
    · refine .inr (existsUnique_of_mem_results distinct ((kept _).mpr ⟨among, ?_⟩))
      rwa [List.mem_singleton]
  · rw [← partition.texts, List.sublistForall₂_map_right_iff]
    exact sublistForall₂_of_sublist settles (dropSeen_sublist _ _)
      fun group grouped edit settled => carries_of_settles grouped settled

theorem complete_merges_call :
    Checked.complete Sample.callCompleter (.atEnd "s") "call" = .ok (.ok
      [⟨1, 1, "(", 2, none⟩, ⟨0, 1, "sin(", 4, none⟩, ⟨0, 1, "sqrt(", 5, some "root"⟩]) ∧
    (results (.atEnd "s")
      [⟨1, 1, "(", 2, none⟩, ⟨0, 1, "sin(", 4, none⟩, ⟨0, 1, "sqrt(", 5, some "root"⟩]).Nodup := by
  have answered : Checked.complete Sample.callCompleter (.atEnd "s") "call" = .ok (.ok
      [⟨1, 1, "(", 2, none⟩, ⟨0, 1, "sin(", 4, none⟩, ⟨0, 1, "sqrt(", 5, some "root"⟩]) := by
    decide +kernel
  obtain ⟨_, _, distinct, _⟩ := complete_merges answered
  exact ⟨answered, distinct⟩

end Completer

end Typeahead
