import Typeahead.Completion.Complete
import Mathlib.Data.List.Nodup

/-!
Groups of proposals: one for each text that proposals lead to, in the order in which these texts come up,
and in it all proposals that lead there, in their order.
-/

namespace Typeahead

namespace ProposalGroup

def members (group : ProposalGroup) : List Proposal := group.first :: group.others

variable {content text : String} {proposal : Proposal} {group : ProposalGroup}
  {groups : List ProposalGroup} {proposals : List Proposal}

theorem put_of_notMem (new : text ∉ groups.map ProposalGroup.text) :
    put text proposal groups = groups ++ [⟨text, proposal, []⟩] := by
  induction groups with
  | nil => rfl
  | cons group groups ih =>
    rw [List.map_cons, List.mem_cons, not_or] at new
    rw [put, if_neg (Ne.symm new.1), ih new.2, List.cons_append]

theorem put_of_mem (distinct : (groups.map ProposalGroup.text).Nodup)
    (old : text ∈ groups.map ProposalGroup.text) :
    put text proposal groups = groups.map fun group =>
      if group.text = text then { group with others := group.others ++ [proposal] } else group := by
  induction groups with
  | nil => cases old
  | cons group groups ih =>
    rw [List.map_cons, List.nodup_cons] at distinct
    rw [put, List.map_cons]
    split
    · rename_i same
      subst same
      have others : groups.map (fun other => if other.text = group.text then
          { other with others := other.others ++ [proposal] } else other) = groups.map id := by
        refine List.map_congr_left fun other listed => if_neg fun same => distinct.1 ?_
        rw [← same]
        exact List.mem_map_of_mem listed
      rw [others, List.map_id]
    · rename_i apart
      rw [List.map_cons, List.mem_cons] at old
      rw [ih distinct.2 (old.resolve_left (Ne.symm apart))]

/-- What groups are, once the proposals have been put into them one by one. -/
structure Partition (content : String) (proposals : List Proposal) (groups : List ProposalGroup) :
    Prop where
  distinct : (groups.map ProposalGroup.text).Nodup
  texts : groups.map ProposalGroup.text =
    (proposals.map fun proposal => proposal.result content).eraseDups
  members : ∀ group ∈ groups,
    group.members = proposals.filter fun proposal => proposal.result content = group.text

theorem eraseDups_concat (texts : List String) (text : String) :
    (texts ++ [text]).eraseDups =
      if text ∈ texts then texts.eraseDups else texts.eraseDups ++ [text] := by
  rw [List.eraseDups_append, List.removeAll]
  by_cases old : text ∈ texts
  · rw [if_pos old, List.filter_cons_of_neg (by simpa using old), List.filter_nil, List.eraseDups_nil,
      List.append_nil]
  · rw [if_neg old, List.filter_cons_of_pos (by simpa using old), List.filter_nil]
    rfl

namespace Partition

theorem mem_texts (partition : Partition content proposals groups) :
    text ∈ groups.map ProposalGroup.text ↔
      text ∈ proposals.map fun proposal => proposal.result content := by
  rw [partition.texts, List.mem_eraseDups]

theorem put_old (partition : Partition content proposals groups)
    (old : proposal.result content ∈ groups.map ProposalGroup.text) :
    Partition content (proposals ++ [proposal])
      (ProposalGroup.put (proposal.result content) proposal groups) := by
  have same : (ProposalGroup.put (proposal.result content) proposal groups).map ProposalGroup.text =
      groups.map ProposalGroup.text := by
    rw [put_of_mem partition.distinct old, List.map_map]
    refine List.map_congr_left fun group _ => ?_
    simp only [Function.comp_apply]
    split <;> rfl
  refine ⟨by rw [same]; exact partition.distinct, ?_, fun group listed => ?_⟩
  · rw [same, List.map_append, List.map_singleton, eraseDups_concat,
      if_pos (partition.mem_texts.mp old), partition.texts]
  · rw [put_of_mem partition.distinct old] at listed
    obtain ⟨before, among, rfl⟩ := List.mem_map.mp listed
    have members := partition.members before among
    split
    · rename_i here
      change before.members ++ [proposal] = _
      rw [List.filter_append, List.filter_cons_of_pos (by simp [here]), members]
      rfl
    · rename_i elsewhere
      rw [List.filter_append, List.filter_cons_of_neg (by simpa using Ne.symm elsewhere), members,
        List.filter_nil, List.append_nil]

theorem put_new (partition : Partition content proposals groups)
    (new : proposal.result content ∉ groups.map ProposalGroup.text) :
    Partition content (proposals ++ [proposal])
      (ProposalGroup.put (proposal.result content) proposal groups) := by
  rw [put_of_notMem new]
  refine ⟨?_, ?_, fun group listed => ?_⟩
  · rw [List.map_append, List.nodup_append]
    refine ⟨partition.distinct, List.nodup_singleton _, fun text listed other single same => new ?_⟩
    rw [List.map_singleton, List.mem_singleton] at single
    rw [same, single] at listed
    exact listed
  · rw [List.map_append, List.map_append, List.map_singleton, List.map_singleton, eraseDups_concat,
      if_neg (mt partition.mem_texts.mpr new), partition.texts]
  · rw [List.filter_append]
    rcases List.mem_append.mp listed with among | last
    · have elsewhere : proposal.result content ≠ group.text :=
        fun same => new (same ▸ List.mem_map_of_mem among)
      rw [List.filter_cons_of_neg (by simpa using elsewhere), List.filter_nil, List.append_nil,
        partition.members group among]
    · rw [List.mem_singleton.mp last]
      have none : proposals.filter
          (fun other => other.result content = proposal.result content) = [] := by
        rw [List.filter_eq_nil_iff]
        intro other among same
        exact new (partition.mem_texts.mpr (List.mem_map.mpr ⟨other, among, of_decide_eq_true same⟩))
      rw [none, List.filter_cons_of_pos (by simp)]
      rfl

theorem put (partition : Partition content proposals groups) (proposal : Proposal) :
    Partition content (proposals ++ [proposal])
      (ProposalGroup.put (proposal.result content) proposal groups) := by
  by_cases old : proposal.result content ∈ groups.map ProposalGroup.text
  · exact partition.put_old old
  · exact partition.put_new old

theorem foldl_put (partition : Partition content proposals groups) (more : List Proposal) :
    Partition content (proposals ++ more) (more.foldl
      (fun groups proposal => ProposalGroup.put (proposal.result content) proposal groups) groups) := by
  induction more generalizing proposals groups with
  | nil =>
    rw [List.append_nil]
    exact partition
  | cons proposal more ih =>
    rw [List.append_cons]
    exact ih (partition.put proposal)

end Partition

theorem ofProposals_partition (content : String) (proposals : List Proposal) :
    Partition content proposals (ofProposals content proposals) := by
  have empty : Partition content [] [] := ⟨.nil, rfl, fun group listed => nomatch listed⟩
  exact empty.foldl_put proposals

theorem mem_members (listed : group ∈ ofProposals content proposals) :
    proposal ∈ group.members ↔ proposal ∈ proposals ∧ proposal.result content = group.text := by
  rw [(ofProposals_partition content proposals).members group listed, List.mem_filter, decide_eq_true_iff]

theorem find?_text (listed : group ∈ ofProposals content proposals) :
    proposals.find? (fun proposal => proposal.result content = group.text) = some group.first := by
  rw [← List.head?_filter, ← (ofProposals_partition content proposals).members group listed]
  rfl

end ProposalGroup

end Typeahead
