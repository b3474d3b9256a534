import Typeahead.Chart.Path
import Typeahead.Proofs.Chart.Recognition

/-!
Paths through a chart go from level to level: each one awaits the rule of the one below it, at the
position where that began, up to an item of the start rule.
-/

namespace Typeahead

deriving instance DecidableEq for Level

namespace Chart

variable {chart : Chart} {level next top : Level} {path below : Path}

/-- A level shows an item of its node and the element that the item expects. -/
structure Stands (chart : Chart) (level : Level) : Prop where
  found : Column.itemAt? chart.columns level.node = some level.item
  expects : level.item.next? chart.grammar = some level.element

theorem Stands.placed (stands : chart.Stands level) :
    chart.grammar.element? level.item.rule level.item.alternative level.item.index =
      some level.element := Item.element?_of_next? stands.expects

structure Awaits (chart : Chart) (next level : Level) : Prop where
  position : next.node.position = level.item.origin
  awaited : next.item.awaited? chart.grammar = some level.item.rule

theorem Awaits.refers (awaits : chart.Awaits next level) (stands : chart.Stands next) :
    next.element.symbol.target? = some level.item.rule := by
  have awaited := awaits.awaited
  rwa [Item.awaited?, stands.expects, Option.bind_some] at awaited

/-- The levels of a path, from the innermost to that of the start rule. -/
inductive Ascent (chart : Chart) : Path → Prop where
  | root {level : Level} (stands : chart.Stands level) (isRoot : chart.isRoot level.item = true) :
      chart.Ascent [level]
  | step {level next : Level} {path : Path} (stands : chart.Stands level)
      (awaits : chart.Awaits next level) (outer : chart.Ascent (next :: path)) :
      chart.Ascent (level :: next :: path)

theorem Ascent.stands (ascent : chart.Ascent (level :: path)) : chart.Stands level := by
  cases ascent with
  | root stands => exact stands
  | step stands => exact stands

theorem Ascent.stands_of_mem (ascent : chart.Ascent path) (listed : level ∈ path) :
    chart.Stands level := by
  induction ascent with
  | root stands =>
    rw [List.mem_singleton.mp listed]
    exact stands
  | step stands _ _ ih =>
    rcases List.mem_cons.mp listed with rfl | listed
    · exact stands
    · exact ih listed

theorem Ascent.drop (ascent : chart.Ascent path) {depth : Nat}
    (here : path.drop depth = level :: below) : chart.Ascent (level :: below) := by
  induction ascent generalizing depth with
  | root stands isRoot =>
    cases depth with
    | zero =>
      cases here
      exact .root stands isRoot
    | succ depth => simp at here
  | step stands awaits outer ih =>
    cases depth with
    | zero =>
      cases here
      exact .step stands awaits outer
    | succ depth => exact ih here

theorem level?_eq_some {id : NodeId} (found : chart.level? id = some level) :
    level.node = id ∧ chart.Stands level := by
  obtain ⟨node, placed, found⟩ := Option.bind_eq_some_iff.mp found
  obtain ⟨element, expects, rfl⟩ := Option.map_eq_some_iff.mp found
  exact ⟨rfl, by rw [itemAt?_columns, placed, Option.map_some], expects⟩

theorem mem_above {item : Item} (listed : next ∈ chart.above item) :
    chart.Stands next ∧ next.node.position = item.origin ∧
      next.item.awaited? chart.grammar = some item.rule := by
  rw [above, (sortByKey_perm _ _).mem_iff] at listed
  obtain ⟨slot, awaiting, found⟩ := List.mem_filterMap.mp listed
  obtain ⟨node, placed, awaits⟩ := (Column.mem_awaiting _ _ _).mp awaiting
  obtain ⟨same, stands⟩ := level?_eq_some found
  have shown := stands.found
  rw [same, itemAt?_columns, node?, placed, Option.map_some, Option.some.injEq] at shown
  exact ⟨stands, by rw [same], by rw [← shown, awaits]⟩

theorem mem_foldl_append {α β : Type} (skips : α → Bool) (more : List β → α → List β) {listed : β}
    (entries : List α) (found : List β)
    (member : listed ∈ entries.foldl
      (fun found entry => if skips entry then found else found ++ more found entry) found) :
    listed ∈ found ∨ ∃ entry ∈ entries, ∃ before, listed ∈ more before entry := by
  induction entries generalizing found with
  | nil => exact .inl member
  | cons entry entries ih =>
    rcases ih _ member with member | ⟨other, among, later⟩
    · dsimp only at member
      split at member
      · exact .inl member
      · rcases List.mem_append.mp member with old | new
        · exact .inl old
        · exact .inr ⟨entry, List.mem_cons_self, found, new⟩
    · exact .inr ⟨other, List.mem_cons_of_mem _ among, later⟩

/-- Whatever lies above the topmost level joins the levels so far. -/
theorem climb_ascends {fuel limit : Nat} (climbed : path ∈ chart.climb fuel limit top below)
    (stands : chart.Stands top)
    (joins : ∀ outer, chart.Ascent (top :: outer) → chart.Ascent (below.reverse ++ top :: outer)) :
    chart.Ascent path ∧ ∃ outer, path = below.reverse ++ top :: outer := by
  induction fuel generalizing limit top below with
  | zero => cases climbed
  | succ fuel ih =>
    rw [climb] at climbed
    split at climbed
    · cases climbed
    · split at climbed
      · rename_i isRoot
        rw [List.mem_singleton] at climbed
        subst climbed
        rw [List.reverse_cons]
        exact ⟨joins [] (.root stands isRoot), [], rfl⟩
      · rcases mem_foldl_append _ _ _ _ climbed with none | ⟨next, listed, before, climbed⟩
        · cases none
        · obtain ⟨standsNext, position, awaited⟩ := mem_above listed
          obtain ⟨ascent, outer, rfl⟩ := ih climbed standsNext fun outer ascent => by
            rw [List.reverse_cons, List.append_assoc]
            exact joins _ (.step stands ⟨position, awaited⟩ ascent)
          refine ⟨ascent, next :: outer, ?_⟩
          rw [List.reverse_cons, List.append_assoc, List.singleton_append]

/-- The paths from a node go up from it to the start rule. -/
theorem paths_ascend {limit : Nat} {id : NodeId} (climbed : path ∈ chart.paths limit id) :
    chart.Ascent path ∧ ∃ level enclosing, path = level :: enclosing ∧ level.node = id := by
  rw [paths] at climbed
  split at climbed
  · cases climbed
  · rename_i level found
    obtain ⟨same, stands⟩ := level?_eq_some found
    obtain ⟨ascent, outer, rfl⟩ := climb_ascends climbed stands fun _ ascent => ascent
    exact ⟨ascent, level, outer, rfl, same⟩

end Chart

end Typeahead
