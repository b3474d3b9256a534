import Typeahead.Chart.Item
import Typeahead.Sorting

/-!
Columns of a chart: the items that hold at one position, each with the links that say how it was
reached. A column grows by insertion, and its nodes keep the order in which they came.
-/

namespace Typeahead

structure NodeId where
  position : Nat
  slot : Nat
deriving DecidableEq

/-- What an element matched: a token, by its place in the input, or a completed rule. -/
inductive Child where
  | token (index : Nat)
  | rule (completed : NodeId)
deriving DecidableEq

/-- A match that leads to a node: the node before it, the element that occurred, and what it
matched. -/
structure Link where
  previous : NodeId
  index : Nat
  child : Child
deriving DecidableEq

namespace Link

/-- Links are ordered by the node before the match, then by the element; tokens come before rules. -/
def key (link : Link) : List Nat :=
  link.previous.position :: link.previous.slot :: link.index ::
    match link.child with
    | .token index => [0, index]
    | .rule completed => [1, completed.position, completed.slot]

end Link

/-- An item and the matches that lead to it, each once and in ascending order. -/
structure Node where
  item : Item
  links : List Link
deriving DecidableEq

namespace Node

def addLinks (node : Node) (links : List Link) : Node :=
  { node with links := links.foldr (insertByKey Link.key) node.links }

/-- Those of the links that a node does not have. A match that leads from a node to itself adds
nothing. -/
def missing (node : Node) (id : NodeId) (links : List Link) : List Link :=
  links.filter fun link => link.previous != id && !node.links.contains link

end Node

/-- The nodes at one position of a chart, in the order in which they came. No two of them have the same
item. -/
structure Column (grammar : Grammar) where
  nodes : Array Node := #[]
  /-- The place of each item. -/
  slots : Std.TreeMap Item Nat := ∅
  /-- The rules that nodes await, each with the place of the node, in order. -/
  waiting : List (Nat × Nat) := []
  slots_iff (item : Item) (slot : Nat) :
    slots[item]? = some slot ↔ nodes[slot]?.map Node.item = some item := by simp
  waiting_eq : waiting = ((nodes.toList.map Node.item).zipIdx.filterMap fun place =>
    (place.1.awaited? grammar).map (·, place.2)) := by simp

namespace Column

variable {grammar : Grammar}

def push (column : Column grammar) (node : Node) (isNew : column.slots[node.item]? = none) :
    Column grammar where
  nodes := column.nodes.push node
  slots := column.slots.insert node.item column.nodes.size
  waiting := column.waiting ++
    ((node.item.awaited? grammar).map (·, column.nodes.size)).toList
  slots_iff item slot := by
    have old := column.slots_iff item slot
    rw [Std.TreeMap.getElem?_insert, Array.getElem?_push]
    by_cases same : node.item = item
    · subst same
      rw [isNew] at old
      by_cases atEnd : slot = column.nodes.size
      · simp [atEnd]
      · rw [if_neg atEnd, ← old]
        simpa [eq_comm] using atEnd
    · rw [if_neg (by simpa using same)]
      by_cases atEnd : slot = column.nodes.size
      · subst atEnd
        rw [old]
        simpa using same
      · rw [if_neg atEnd, old]
  waiting_eq := by
    rw [column.waiting_eq]
    cases h : node.item.awaited? grammar <;> simp [List.zipIdx_append, h]

theorem items_modify (nodes : Array Node) (slot : Nat) (links : List Link) :
    (nodes.modify slot (·.addLinks links)).toList.map Node.item = nodes.toList.map Node.item := by
  apply List.ext_getElem?
  intro place
  simp only [List.getElem?_map, Array.getElem?_toList, Array.getElem?_modify]
  split <;> simp [Node.addLinks, Function.comp_def]

def addLinks (column : Column grammar) (slot : Nat) (links : List Link) : Column grammar where
  nodes := column.nodes.modify slot (·.addLinks links)
  slots := column.slots
  waiting := column.waiting
  slots_iff item place := by
    rw [column.slots_iff, Array.getElem?_modify]
    split <;> simp [Node.addLinks, Function.comp_def]
  waiting_eq := by rw [items_modify, column.waiting_eq]

def inOrder (column : Column grammar) : List (Item × Nat) := column.slots.toList

def awaiting (column : Column grammar) (rule : Nat) : List Nat :=
  (column.waiting.filter (·.1 == rule)).map (·.2)

/-- Adds an item with its links, or the links alone where the item is there already. Also says which links
were added to a node that was there. -/
def add (column : Column grammar) (position : Nat) (item : Item) (links : List Link) :
    Column grammar × List Link :=
  match known : column.slots[item]? with
  | none =>
    (column.push ((Node.mk item []).addLinks links) known, [])
  | some slot =>
    let added := match column.nodes[slot]? with
      | none => []
      | some node => node.missing ⟨position, slot⟩ links
    (column.addLinks slot added, added)

/-- Puts an item, which stands in front of `rest` in its alternative, into the column at `position`.
Links that are new to an old item are passed on to the items that it may be skipped to; a new item
passes its links on when its turn comes. -/
def insertBefore (position : Nat) :
    (rest : List Element) → Item → List Link → Column grammar → Column grammar
  | [], item, links, column => (column.add position item links).1
  | element :: rest, item, links, column =>
    let added := column.add position item links
    if !added.2.isEmpty && (item.matched || element.multiplicity.isOptional) then
      insertBefore position rest item.skipped added.2 added.1
    else added.1

def insert (position : Nat) (item : Item) (links : List Link) (column : Column grammar) :
    Column grammar :=
  insertBefore position ((grammar.elements item.rule item.alternative).drop item.index) item links
    column

end Column

end Typeahead
