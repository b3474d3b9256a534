import Mathlib.Data.List.Lex
import Typeahead.Grammar.Sample
import Typeahead.Proofs.Chart.Climbing
import Typeahead.Proofs.Chart.Paths
import Typeahead.Proofs.Chart.Renaming
import Typeahead.Proofs.Sorting

/-!
The paths of a chart are the simple climbs from a node to the start rule, each once and in the order of the
items on them. A limit keeps the first ones.
-/

namespace Typeahead

namespace Chart

variable {chart : Chart} {level next top other : Level} {path below : Path} {id : NodeId} {item : Item}

/-- A climb goes from a node to one that awaits its rule where it began, and so on. It ends with the first
item of the start rule at the front, and no node comes twice. -/
structure SimpleClimb (chart : Chart) (id : NodeId) (path : Path) : Prop where
  begins : path.head?.map Level.node = some id
  shown : ∀ level ∈ path, chart.Stands level ∧ level.parsed = chart.parsedCount level.node + 1
  awaits : path.IsChain fun level next => chart.Awaits next level
  distinct : (path.map Level.node).Nodup
  ends : ∀ (depth : Nat) (level : Level), path[depth]? = some level →
    (chart.isRoot level.item = true ↔ depth + 1 = path.length)

theorem level?_eq_self_iff : chart.level? level.node = some level ↔
    chart.Stands level ∧ level.parsed = chart.parsedCount level.node + 1 := by
  constructor
  · intro shown
    obtain ⟨node, _, found⟩ := Option.bind_eq_some_iff.mp shown
    obtain ⟨element, _, same⟩ := Option.map_eq_some_iff.mp found
    exact ⟨(level?_eq_some shown).2, by rw [← same]⟩
  · rintro ⟨⟨found, expects⟩, parsed⟩
    rw [itemAt?_columns] at found
    obtain ⟨node, placed, same⟩ := Option.map_eq_some_iff.mp found
    rw [level?, placed, Option.bind_some, same, expects, Option.map_some, ← parsed]

theorem level?_of_mem_above (listed : next ∈ chart.above item) :
    chart.level? next.node = some next := by
  rw [above, (sortByKey_perm _ _).mem_iff] at listed
  obtain ⟨slot, _, found⟩ := List.mem_filterMap.mp listed
  rw [(level?_eq_some found).1]
  exact found

theorem mem_above_iff : next ∈ chart.above item ↔ chart.level? next.node = some next ∧
    next.node.position = item.origin ∧ next.item.awaited? chart.grammar = some item.rule := by
  constructor
  · intro listed
    exact ⟨level?_of_mem_above listed, (mem_above listed).2⟩
  · rintro ⟨shown, position, awaited⟩
    obtain ⟨_, stands⟩ := level?_eq_some shown
    have found := stands.found
    rw [itemAt?_columns, node?, position] at found
    obtain ⟨node, placed, same⟩ := Option.map_eq_some_iff.mp found
    rw [above, (sortByKey_perm _ _).mem_iff]
    apply List.mem_filterMap.mpr
    refine ⟨next.node.slot, (Column.mem_awaiting _ _ _).mpr ⟨node, placed, same ▸ awaited⟩, ?_⟩
    rw [← position]
    exact shown

theorem simpleClimb_singleton : chart.SimpleClimb level.node [level] ↔
    chart.level? level.node = some level ∧ chart.isRoot level.item = true := by
  constructor
  · intro climb
    exact ⟨level?_eq_self_iff.mpr (climb.shown level List.mem_cons_self),
      (climb.ends 0 level rfl).mpr rfl⟩
  · rintro ⟨shown, isRoot⟩
    refine ⟨rfl, List.forall_mem_singleton.mpr (level?_eq_self_iff.mp shown), .singleton _,
      List.nodup_singleton _, fun depth other here => ?_⟩
    cases depth with
    | zero =>
      cases here
      exact ⟨fun _ => rfl, fun _ => isRoot⟩
    | succ depth => cases here

theorem simpleClimb_cons_cons : chart.SimpleClimb level.node (level :: next :: path) ↔
    (chart.level? level.node = some level ∧ chart.isRoot level.item = false ∧
      chart.Awaits next level ∧ level.node ∉ (next :: path).map Level.node) ∧
    chart.SimpleClimb next.node (next :: path) := by
  constructor
  · intro climb
    obtain ⟨awaits, awaitsRest⟩ := List.isChain_cons_cons.mp climb.awaits
    obtain ⟨apart, distinct⟩ := List.nodup_cons.mp climb.distinct
    obtain ⟨shown, shownRest⟩ := List.forall_mem_cons.mp climb.shown
    have inner : chart.isRoot level.item = false := by
      by_contra isRoot
      have last := (climb.ends 0 level rfl).mp (by simpa using isRoot)
      simp at last
    refine ⟨⟨level?_eq_self_iff.mpr shown, inner, awaits, apart⟩, rfl, shownRest, awaitsRest, distinct,
      fun depth other here => ?_⟩
    have ends := climb.ends (depth + 1) other here
    rwa [List.length_cons, Nat.add_right_cancel_iff] at ends
  · rintro ⟨⟨shown, inner, awaits, apart⟩, climb⟩
    refine ⟨rfl, List.forall_mem_cons.mpr ⟨level?_eq_self_iff.mp shown, climb.shown⟩,
      climb.awaits.cons_cons awaits, List.nodup_cons.mpr ⟨apart, climb.distinct⟩,
      fun depth other here => ?_⟩
    cases depth with
    | zero =>
      cases here
      simp [inner]
    | succ depth =>
      rw [List.length_cons, Nat.add_right_cancel_iff]
      exact climb.ends depth other here

theorem any_node_iff : (path.any (·.node == next.node)) = true ↔ next.node ∈ path.map Level.node := by
  simp only [List.any_eq_true, beq_iff_eq, List.mem_map]

/-- What is climbed from a level on are the simple climbs from there that stay off the levels below. -/
theorem mem_climbAll {fuel : Nat} (shown : chart.level? top.node = some top) :
    path ∈ chart.climbAll fuel top below ↔ ∃ outer, path = below.reverse ++ top :: outer ∧
      outer.length < fuel ∧ chart.SimpleClimb top.node (top :: outer) ∧
      ∀ level ∈ outer, level.node ∉ below.map Level.node := by
  induction fuel generalizing top below with
  | zero => simp [climbAll]
  | succ fuel ih =>
    rw [climbAll]
    split
    · rename_i isRoot
      rw [List.mem_singleton, List.reverse_cons]
      constructor
      · rintro rfl
        exact ⟨[], rfl, Nat.succ_pos fuel, simpleClimb_singleton.mpr ⟨shown, isRoot⟩,
          List.forall_mem_nil _⟩
      · rintro ⟨outer, rfl, _, climb, _⟩
        have alone := (climb.ends 0 top rfl).mp isRoot
        rw [List.length_cons, Nat.add_right_cancel_iff, eq_comm, List.length_eq_zero_iff] at alone
        rw [alone]
    · rename_i inner
      simp only [List.mem_flatMap]
      constructor
      · rintro ⟨next, listed, climbed⟩
        split at climbed
        · cases climbed
        · rename_i fresh
          obtain ⟨shownNext, position, awaited⟩ := mem_above_iff.mp listed
          obtain ⟨outer, rfl, short, climb, apart⟩ := (ih shownNext).mp climbed
          rw [any_node_iff, List.map_cons, List.mem_cons, not_or] at fresh
          obtain ⟨offTop, offBelow⟩ := fresh
          simp only [List.map_cons, List.mem_cons, not_or] at apart
          refine ⟨next :: outer, by simp, Nat.succ_lt_succ short, simpleClimb_cons_cons.mpr
            ⟨⟨shown, by simpa using inner, ⟨position, awaited⟩, ?_⟩, climb⟩,
            List.forall_mem_cons.mpr ⟨offBelow, fun level among => (apart level among).2⟩⟩
          rw [List.map_cons, List.mem_cons, not_or]
          refine ⟨Ne.symm offTop, fun among => ?_⟩
          obtain ⟨level, onPath, same⟩ := List.mem_map.mp among
          exact (apart level onPath).1 same
      · rintro ⟨outer, rfl, short, climb, apart⟩
        cases outer with
        | nil => exact (inner (simpleClimb_singleton.mp climb).2).elim
        | cons next outer =>
          obtain ⟨⟨_, _, awaits, offTop⟩, rest⟩ := simpleClimb_cons_cons.mp climb
          have shownNext := level?_eq_self_iff.mpr (rest.shown next List.mem_cons_self)
          rw [List.map_cons, List.mem_cons, not_or] at offTop
          obtain ⟨offBelow, apart⟩ := List.forall_mem_cons.mp apart
          refine ⟨next, mem_above_iff.mpr ⟨shownNext, awaits.position, awaits.awaited⟩, ?_⟩
          have fresh : ¬ (top :: below).any (·.node == next.node) = true := by
            rw [any_node_iff, List.map_cons, List.mem_cons, not_or]
            exact ⟨Ne.symm offTop.1, offBelow⟩
          rw [if_neg fresh]
          refine (ih shownNext).mpr ⟨outer, by simp, Nat.lt_of_succ_lt_succ short, rest, ?_⟩
          intro level among
          rw [List.map_cons, List.mem_cons, not_or]
          exact ⟨fun same => offTop.2 (same ▸ List.mem_map_of_mem among), apart level among⟩

/-- The ids of all nodes, position by position. -/
def nodeIds (chart : Chart) : List NodeId :=
  chart.columns.toList.zipIdx.flatMap fun place =>
    (List.range place.1.nodes.size).map fun slot => ⟨place.2, slot⟩

theorem length_nodeIds (chart : Chart) : chart.nodeIds.length = chart.size := by
  unfold nodeIds size
  rw [Item.length_flatMap_zipIdx (fun column => column.nodes.size) _
    (fun place => by rw [List.length_map, List.length_range]), ← Array.foldr_toList, Array.toList_map]

theorem Stands.mem_nodeIds (stands : chart.Stands level) : level.node ∈ chart.nodeIds := by
  obtain ⟨column, node, inChart, placed, _⟩ := Column.itemAt?_eq_some_iff.mp stands.found
  apply List.mem_flatMap.mpr
  refine ⟨(column, level.node.position), ?_, List.mem_map.mpr ⟨level.node.slot, ?_, rfl⟩⟩
  · rw [List.mem_zipIdx_iff_getElem?, Array.getElem?_toList]
    exact inChart
  · exact List.mem_range.mpr (Array.getElem?_eq_some_iff.mp placed).1

theorem SimpleClimb.length_le (climb : chart.SimpleClimb id path) : path.length ≤ chart.size := by
  have included : path.map Level.node ⊆ chart.nodeIds := by
    intro node listed
    obtain ⟨level, onPath, rfl⟩ := List.mem_map.mp listed
    exact (climb.shown level onPath).1.mem_nodeIds
  have bound := (List.subperm_of_subset climb.distinct included).length_le
  rwa [List.length_map, length_nodeIds] at bound

theorem mem_allPaths : path ∈ chart.allPaths id ↔ chart.SimpleClimb id path := by
  unfold allPaths
  cases found : chart.level? id with
  | none =>
    constructor
    · intro listed
      cases listed
    · intro climb
      obtain ⟨level, first, same⟩ := Option.map_eq_some_iff.mp climb.begins
      have shown := level?_eq_self_iff.mpr (climb.shown level (List.mem_of_head? first))
      rw [same, found] at shown
      cases shown
  | some top =>
    obtain ⟨rfl, _⟩ := level?_eq_some found
    rw [Option.elim_some, mem_climbAll found]
    constructor
    · rintro ⟨outer, rfl, _, climb, _⟩
      exact climb
    · intro climb
      obtain ⟨level, first, same⟩ := Option.map_eq_some_iff.mp climb.begins
      have shown := level?_eq_self_iff.mpr (climb.shown level (List.mem_of_head? first))
      rw [same, found] at shown
      cases shown
      obtain ⟨outer, rfl⟩ := List.head?_eq_some_iff.mp first
      refine ⟨outer, rfl, climb.length_le, climb, fun _ _ => List.not_mem_nil⟩

theorem simpleClimb_of_mem_paths {limit : Nat} (climbed : path ∈ chart.paths limit id) :
    chart.SimpleClimb id path := by
  rw [paths_eq_take] at climbed
  exact mem_allPaths.mp (List.mem_of_mem_take climbed)

/-- The items on a path, as their keys. -/
def keys (path : Path) : List (List Nat) := path.map fun level => level.item.key

theorem pairwise_above (chart : Chart) (item : Item) :
    (chart.above item).Pairwise fun level next => level.item.key < next.item.key := by
  have distinct : ((chart.above item).map fun level => level.item.key).Nodup := by
    have items : ((chart.above item).map Level.item).Nodup :=
      (items_above chart item).nodup_iff.mpr ((chart.nodup_items item.origin).filter _)
    have keyed := items.map fun _ _ => Item.key_injective
    rwa [List.map_map] at keyed
  exact pairwise_lt_sortByKey _ (((sortByKey_perm _ _).map _).nodup_iff.mp distinct)

theorem pairwise_climbAll (chart : Chart) (fuel : Nat) (top : Level) (below : Path)
    (shown : chart.level? top.node = some top) :
    (chart.climbAll fuel top below).Pairwise fun path other => keys path < keys other := by
  induction fuel generalizing top below with
  | zero => exact .nil
  | succ fuel ih =>
    rw [climbAll]
    split
    · exact List.pairwise_singleton ..
    · apply List.pairwise_flatMap.mpr
      constructor
      · intro next listed
        split
        · exact .nil
        · exact ih next (top :: below) (level?_of_mem_above listed)
      · apply (chart.pairwise_above top.item).imp_of_mem
        intro next other listed listedOther smaller path climbed otherPath otherClimbed
        split at climbed
        · cases climbed
        · split at otherClimbed
          · cases otherClimbed
          · obtain ⟨outer, rfl, _⟩ := (mem_climbAll (level?_of_mem_above listed)).mp climbed
            obtain ⟨others, rfl, _⟩ := (mem_climbAll (level?_of_mem_above listedOther)).mp otherClimbed
            unfold keys
            rw [List.map_append, List.map_append]
            exact List.append_left_lt (List.Lex.rel smaller)

theorem pairwise_allPaths (chart : Chart) (id : NodeId) :
    (chart.allPaths id).Pairwise fun path other => keys path < keys other := by
  unfold allPaths
  cases found : chart.level? id with
  | none => exact .nil
  | some top =>
    obtain ⟨rfl, _⟩ := level?_eq_some found
    exact pairwise_climbAll chart chart.size top [] found

/-- The paths from a node are the simple climbs from it, each once, in lexicographic order of the items on
them. A limit keeps the first ones, and there are none from a node that expects nothing. -/
theorem paths_enumerate (chart : Chart) (id : NodeId) :
    (∀ path, path ∈ chart.allPaths id ↔ chart.SimpleClimb id path) ∧
    (chart.allPaths id).Nodup ∧
    (chart.allPaths id).Pairwise (fun path other => keys path < keys other) ∧
    (∀ limit, chart.paths limit id = (chart.allPaths id).take limit) ∧
    (∀ limit, (chart.allPaths id).length ≤ limit → chart.paths limit id = chart.allPaths id) ∧
    (chart.expected? id = none → ∀ limit, chart.paths limit id = []) := by
  have ordered := pairwise_allPaths chart id
  refine ⟨fun path => mem_allPaths, ?_, ordered, fun limit => paths_eq_take chart limit id, ?_, ?_⟩
  · apply ordered.imp
    intro path other smaller same
    rw [same] at smaller
    exact lt_irrefl _ smaller
  · intro limit enough
    rw [paths_eq_take]
    exact List.take_of_length_le enough
  · intro nothing limit
    have unshown : chart.level? id = none := by
      unfold expected? at nothing
      unfold level?
      cases placed : chart.node? id with
      | none => rfl
      | some node =>
        rw [placed, Option.bind_some] at nothing
        rw [Option.bind_some, nothing, Option.map_none]
    rw [paths, unshown]

def cyclicGrammar : Grammar :=
  (Grammar.compile (Sample.vocabulary [.literal "x" ⟨1⟩])
    [Sample.rule "start" [.plain [.rule "cycle"]],
      Sample.rule "cycle" [.plain [.rule "cycle"], .plain [.literal "x"]]]).toOption.getD ⟨[], .initial⟩

/-- Where a rule may stand for itself, the climb that leaves it at once comes before the one that goes round
it, and no climb goes round it twice. -/
theorem paths_enumerate_cyclic :
    let chart := parse cyclicGrammar 0 [⟨⟨1⟩, "x", 0, .default⟩]
    ((chart.allPaths ⟨0, 2⟩).map fun path => path.map Level.node) =
        [[⟨0, 2⟩, ⟨0, 0⟩], [⟨0, 2⟩, ⟨0, 1⟩, ⟨0, 0⟩]] ∧
      2 ≤ 256 ∧ chart.paths 256 ⟨0, 2⟩ = chart.allPaths ⟨0, 2⟩ ∧
      (∀ path ∈ chart.paths 256 ⟨0, 2⟩, chart.SimpleClimb ⟨0, 2⟩ path) ∧
      chart.expected? ⟨1, 1⟩ = none ∧ chart.paths 256 ⟨1, 1⟩ = [] := by
  intro chart
  have nodes : ((chart.allPaths ⟨0, 2⟩).map fun path => path.map Level.node) =
      [[⟨0, 2⟩, ⟨0, 0⟩], [⟨0, 2⟩, ⟨0, 1⟩, ⟨0, 0⟩]] := by decide +kernel
  have nothing : chart.expected? ⟨1, 1⟩ = none := by decide +kernel
  have count : (chart.allPaths ⟨0, 2⟩).length = 2 := by
    have lengths := congrArg List.length nodes
    rwa [List.length_map] at lengths
  obtain ⟨climbs, _, _, _, uncut, _⟩ := paths_enumerate chart ⟨0, 2⟩
  obtain ⟨_, _, _, _, _, none⟩ := paths_enumerate chart ⟨1, 1⟩
  have all := uncut 256 (by rw [count]; decide)
  refine ⟨nodes, by decide, all, fun path listed => ?_, nothing, none nothing 256⟩
  rw [all] at listed
  exact (climbs path).mp listed

end Chart

end Typeahead
