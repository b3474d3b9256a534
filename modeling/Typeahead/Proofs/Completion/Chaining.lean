import Typeahead.Grammar.Sample
import Typeahead.Proofs.Chart.Enumeration
import Typeahead.Proofs.Chart.Invariant
import Typeahead.Proofs.Completion.Request

/-!
Chains of sites. The sites that a source is asked about on a path all expect input at one position.
-/

namespace Typeahead

namespace Chart

open Column

variable {grammar : Grammar} {start limit : Nat} {tokens : List Token} {chart : Chart}

/-- All levels of a path are shown as the chart shows them. -/
theorem paths_level? {id : NodeId} {level : Level} {path : Path} (climbed : path ∈ chart.paths limit id)
    (listed : level ∈ path) : chart.level? level.node = some level :=
  level?_eq_self_iff.mpr ((simpleClimb_of_mem_paths climbed).shown level listed)

/-- A level around one of which nothing else is parsed expects input at the same position. -/
theorem position_of_parsed_one {level next : Level} (parsed : level.parsed = 1)
    (shown : (parse grammar start tokens).level? level.node = some level)
    (awaits : (parse grammar start tokens).Awaits next level) :
    next.node.position = level.node.position := by
  have none : (parse grammar start tokens).parsedCount level.node = 0 := by
    rw [(level?_eq_self_iff.mp shown).2] at parsed
    omega
  rw [awaits.position]
  exact origin_of_unlinked (level?_eq_some shown).2.found (links_of_parsedCount none)

theorem chain_of_ascent {path : Path} {position depth above : Nat} {site : Site}
    (ascent : (parse grammar start tokens).Ascent path)
    (shown : ∀ level ∈ path, (parse grammar start tokens).level? level.node = some level)
    (here : ∀ level ∈ path.head?, level.node.position = position)
    (listed : (Site.chain grammar depth path)[above]? = some site) :
    path[above]? = some site.level ∧ site.depth = depth + above ∧
      site.level.node.position = position := by
  induction ascent generalizing depth above with
  | @root level _ _ =>
    have single : (Site.chain grammar depth [level]) = [⟨grammar, level, [], depth⟩] := by
      rw [Site.chain]
      split <;> rfl
    rw [single] at listed
    cases above with
    | zero =>
      cases listed
      exact ⟨rfl, rfl, here level rfl⟩
    | succ above => cases listed
  | @step level next path _ awaits _ ih =>
    rw [Site.chain] at listed
    cases above with
    | zero =>
      cases listed
      exact ⟨rfl, rfl, here level rfl⟩
    | succ above =>
      rw [List.getElem?_cons_succ] at listed
      split at listed
      · rename_i parsed
        have same := position_of_parsed_one parsed (shown level List.mem_cons_self) awaits
        obtain ⟨place, far, position⟩ := ih (fun other among => shown other (List.mem_cons_of_mem _ among))
          (by rintro _ ⟨⟩; rw [same]; exact here level rfl) listed
        exact ⟨place, by omega, position⟩
      · cases listed

/-- All sites that a source is asked about on a path expect input at the position of the innermost one,
for a node that no match leads to lies where its item began. -/
theorem chain_position (grammar : Grammar) (start : Nat) (tokens : List Token) :
    let chart := parse grammar start tokens
    (∀ id item, itemAt? chart.columns id = some item → chart.links id = [] →
      item.origin = id.position) ∧
    ∀ position limit depth id path, id ∈ chart.expectingTerminal position →
      path ∈ chart.paths limit id → depth < (Site.chain grammar 0 path).length →
        ∃ site level, (Site.chain grammar 0 path)[depth]? = some site ∧ path[depth]? = some level ∧
          site.level = level ∧ site.depth = depth ∧
          itemAt? chart.columns level.node = some level.item ∧ level.node.position = position := by
  refine ⟨fun id item => origin_of_unlinked, ?_⟩
  intro position limit depth id path expected climbed within
  obtain ⟨ascent, level, enclosing, rfl, rfl⟩ := paths_ascend climbed
  have listed := List.getElem?_eq_getElem within
  obtain ⟨place, far, here⟩ := chain_of_ascent ascent (fun _ among => paths_level? climbed among)
    (by rintro _ ⟨⟩; exact ((mem_expectingTerminal _ _ _).mp expected).1) listed
  rw [Nat.zero_add] at far
  exact ⟨_, _, listed, place, rfl, far, (ascent.stands_of_mem (List.mem_of_getElem? place)).found, here⟩

/-- Behind the parenthesis of a call two sites are asked about, the name of an argument and the arguments. -/
theorem chain_position_call :
    let grammar := Sample.callGrammar
    let chart := parse grammar 0 [⟨⟨1⟩, "s", 0, .default⟩, ⟨⟨2⟩, "(", 1, .default⟩]
    ∃ id path, id ∈ chart.expectingTerminal 2 ∧ path ∈ chart.paths 256 id ∧
      1 < (Site.chain grammar 0 path).length ∧
        ∃ site level, (Site.chain grammar 0 path)[1]? = some site ∧ path[1]? = some level ∧
          site.level = level ∧ site.depth = 1 ∧
          itemAt? chart.columns level.node = some level.item ∧ level.node.position = 2 := by
  intro grammar chart
  have found : ((chart.expectingTerminal 2).any fun id => (chart.paths 256 id).any fun path =>
      1 < (Site.chain grammar 0 path).length) = true := by decide +kernel
  obtain ⟨id, expected, found⟩ := List.any_eq_true.mp found
  obtain ⟨path, climbed, within⟩ := List.any_eq_true.mp found
  have longer := of_decide_eq_true within
  exact ⟨id, path, expected, climbed, longer,
    (chain_position grammar 0 _).2 2 256 1 id path expected climbed longer⟩

end Chart

end Typeahead
