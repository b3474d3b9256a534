import Typeahead.Proofs.Chart.Prefix

/-!
The tables of a chart. Its nodes have numbers, those of earlier positions first, and the places of the items
and the nodes that await a rule are told by these.
-/

namespace Typeahead

/-- Where lists stand one behind the other, an entry of one of them comes after all of the lists before. -/
theorem getElem?_flatMap_zipIdx {α β : Type} (size : α → Nat) (parts : α × Nat → List β)
    (each : ∀ x place, (parts (x, place)).length = size x) (xs : List α) (first number : Nat) (y : β) :
    ((xs.zipIdx first).flatMap parts)[number]? = some y ↔ ∃ place x slot,
      xs[place]? = some x ∧ (parts (x, first + place))[slot]? = some y ∧
        ((xs.map size).take place).foldr (· + ·) 0 + slot = number := by
  induction xs generalizing first number with
  | nil => simp
  | cons x xs ih =>
    rw [List.zipIdx_cons, List.flatMap_cons, List.getElem?_append, each]
    constructor
    · intro found
      split at found
      · exact ⟨0, x, number, rfl, found, Nat.zero_add number⟩
      · obtain ⟨place, other, slot, listed, held, count⟩ := (ih _ _).mp found
        refine ⟨place + 1, other, slot, listed, ?_, ?_⟩
        · rwa [Nat.add_right_comm] at held
        · rw [List.map_cons, List.take_succ_cons, List.foldr_cons]
          omega
    · intro found
      obtain ⟨place, other, slot, listed, held, count⟩ := found
      cases place with
      | zero =>
        cases listed
        have inside := (List.getElem?_eq_some_iff.mp held).1
        rw [each] at inside
        rw [List.take_zero, List.foldr_nil, Nat.zero_add] at count
        rw [← count, if_pos inside]
        exact held
      | succ place =>
        rw [List.map_cons, List.take_succ_cons, List.foldr_cons] at count
        rw [if_neg (by omega)]
        refine (ih _ _).mpr ⟨place, other, slot, listed, ?_, by omega⟩
        rwa [Nat.add_right_comm]

theorem Column.nodup_awaiting {grammar : Grammar} (column : Column grammar) (rule : Nat) :
    (column.awaiting rule).Nodup := by
  have distinct : ((column.nodes.toList.map Node.item).zipIdx.map Prod.snd).Nodup := by
    rw [List.zipIdx_map_snd]
    exact List.nodup_range'
  have waiting : column.waiting.Pairwise fun entry other => entry.2 ≠ other.2 := by
    rw [column.waiting_eq]
    refine (List.pairwise_map.mp distinct).filterMap _ fun place other apart entry given later found => ?_
    obtain ⟨_, _, rfl⟩ := Option.map_eq_some_iff.mp given
    obtain ⟨_, _, rfl⟩ := Option.map_eq_some_iff.mp found
    exact apart
  exact List.pairwise_map.mpr (waiting.filter _)

namespace Chart

open Column

variable {chart : Chart} {position number : Nat} {node : Node} {item : Item}

/-- The nodes with their positions, in the order of their numbers. -/
def arena (chart : Chart) : List (Nat × Node) :=
  chart.columns.toList.zipIdx.flatMap fun place => place.1.nodes.toList.map (place.2, ·)

/-- The number of the node that an item has at a position. -/
def number? (chart : Chart) (position : Nat) (item : Item) : Option Nat :=
  ((chart.column position).slots[item]?).map fun slot => chart.serial ⟨position, slot⟩

/-- The numbers of the nodes at a position that await a rule. -/
def awaiting (chart : Chart) (position rule : Nat) : List Nat :=
  ((chart.column position).awaiting rule).map fun slot => chart.serial ⟨position, slot⟩

theorem node?_eq_some_iff {slot : Nat} : chart.node? ⟨position, slot⟩ = some node ↔
    ∃ column, chart.columns[position]? = some column ∧ column.nodes[slot]? = some node := by
  unfold node? column
  cases chart.columns[position]? with
  | none => simp
  | some column => simp

theorem getElem?_arena : chart.arena[number]? = some (position, node) ↔
    ∃ slot, chart.node? ⟨position, slot⟩ = some node ∧ chart.serial ⟨position, slot⟩ = number := by
  rw [arena, getElem?_flatMap_zipIdx (fun column => column.nodes.size) _ fun column place => by
    rw [List.length_map, Array.length_toList]]
  simp only [Array.getElem?_toList, Nat.zero_add, List.getElem?_map, Option.map_eq_some_iff,
    Prod.mk.injEq, node?_eq_some_iff]
  constructor
  · intro found
    obtain ⟨_, column, slot, inChart, ⟨_, placed, rfl, rfl⟩, count⟩ := found
    exact ⟨slot, ⟨column, inChart, placed⟩, count⟩
  · intro found
    obtain ⟨slot, ⟨column, inChart, placed⟩, count⟩ := found
    exact ⟨position, column, slot, inChart, ⟨node, placed, rfl, rfl⟩, count⟩

/-- The tables of a chart tell of the same nodes: the items of each position have the numbers of their nodes,
each number is that of one item at one position, and the numbers of the nodes that await a rule are listed
once each. -/
structure Tabled (chart : Chart) : Prop where
  numbers : ∀ position item number, chart.number? position item = some number ↔
    ∃ node, chart.arena[number]? = some (position, node) ∧ node.item = item
  once : ∀ number < chart.arena.length,
    ∃! place : Nat × Item, chart.number? place.1 place.2 = some number
  awaiting_nodup : ∀ position rule, (chart.awaiting position rule).Nodup
  awaiting : ∀ position rule number, number ∈ chart.awaiting position rule ↔
    ∃ node element, chart.arena[number]? = some (position, node) ∧
      node.item.next? chart.grammar = some element ∧ element.symbol.target? = some rule

theorem number?_eq_some_iff : chart.number? position item = some number ↔
    ∃ slot, itemAt? chart.columns ⟨position, slot⟩ = some item ∧
      chart.serial ⟨position, slot⟩ = number := by
  simp only [number?, Option.map_eq_some_iff, (chart.column position).slots_iff, itemAt?_columns, node?]

theorem number?_iff_arena : chart.number? position item = some number ↔
    ∃ node, chart.arena[number]? = some (position, node) ∧ node.item = item := by
  simp only [number?_eq_some_iff, itemAt?_columns, Option.map_eq_some_iff, getElem?_arena]
  constructor
  · intro given
    obtain ⟨slot, ⟨node, placed, same⟩, count⟩ := given
    exact ⟨node, ⟨slot, placed, count⟩, same⟩
  · intro given
    obtain ⟨node, ⟨slot, placed, count⟩, same⟩ := given
    exact ⟨slot, ⟨node, placed, same⟩, count⟩

/-- An id leads to the node with its number. -/
def Holds (chart : Chart) (id : NodeId) : Prop :=
  ∃ node, chart.arena[chart.serial id]? = some (id.position, node)

theorem holds_of_itemAt? {id : NodeId} (found : itemAt? chart.columns id = some item) :
    chart.Holds id := by
  rw [itemAt?_columns] at found
  obtain ⟨node, placed, _⟩ := Option.map_eq_some_iff.mp found
  exact ⟨node, getElem?_arena.mpr ⟨id.slot, placed, rfl⟩⟩

/-- Numbers do not depend on the columns behind. -/
theorem serial_push {grammar : Grammar} (start : Nat) (tokens : List Token)
    (columns : Array (Column grammar)) (column : Column grammar) {id : NodeId}
    (before : id.position ≤ columns.size) :
    (Chart.mk grammar start tokens (columns.push column)).serial id =
      (Chart.mk grammar start tokens columns).serial id := by
  have inside : id.position ≤ (columns.toList.map (·.nodes.size)).length := by
    rwa [List.length_map, Array.length_toList]
  rw [serial, serial, Array.toList_push, List.map_append, List.take_append_of_le_length inside]

theorem serial_injective (position : Nat) :
    Function.Injective fun slot => chart.serial ⟨position, slot⟩ :=
  fun _ _ same => Nat.add_left_cancel same

theorem tabled (chart : Chart) : chart.Tabled where
  numbers _ _ _ := number?_iff_arena
  once number inside := by
    obtain ⟨⟨position, node⟩, listed⟩ : ∃ place, chart.arena[number]? = some place :=
      ⟨_, List.getElem?_eq_getElem inside⟩
    refine ⟨(position, node.item), number?_iff_arena.mpr ⟨node, listed, rfl⟩, ?_⟩
    intro place numbered
    obtain ⟨other, listedOther, same⟩ := number?_iff_arena.mp numbered
    rw [listed] at listedOther
    cases listedOther
    exact Prod.ext rfl same.symm
  awaiting_nodup position rule := ((chart.column position).nodup_awaiting rule).map (serial_injective position)
  awaiting position rule number := by
    simp only [Chart.awaiting, List.mem_map, mem_awaiting, getElem?_arena]
    constructor
    · intro given
      obtain ⟨slot, ⟨node, placed, awaits⟩, count⟩ := given
      obtain ⟨element, expects, refers⟩ := Option.bind_eq_some_iff.mp awaits
      exact ⟨node, element, ⟨slot, placed, count⟩, expects, refers⟩
    · intro given
      obtain ⟨node, element, ⟨slot, placed, count⟩, expects, refers⟩ := given
      exact ⟨slot, ⟨node, placed, Item.awaited?_of_target expects refers⟩, count⟩

end Chart

end Typeahead
