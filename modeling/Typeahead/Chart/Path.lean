import Typeahead.Chart.Basic

/-!
Paths through a chart: from a node that expects an element up to a node of the start rule, by way of
the nodes that await each other's rules.
-/

namespace Typeahead

structure Level where
  node : NodeId
  item : Item
  element : Element
  /-- How many elements of the alternative are parsed once this one is. -/
  parsed : Nat

/-- The levels from the innermost to that of the start rule. -/
abbrev Path := List Level

namespace Chart

def level? (chart : Chart) (id : NodeId) : Option Level :=
  (chart.node? id).bind fun node =>
    (node.item.next? chart.grammar).map fun element =>
      ⟨id, node.item, element, chart.parsedCount id + 1⟩

/-- The levels above an item: the nodes that await its rule where it began, in the order of their
items. -/
def above (chart : Chart) (item : Item) : List Level :=
  let column := chart.column item.origin
  let waiters := (column.awaiting item.rule).filterMap fun slot =>
    chart.level? ⟨item.origin, slot⟩
  sortByKey (·.item.key) waiters

/-- At most `limit` of the paths that go on from `below`, which holds the levels so far with the topmost
first. No node comes twice on a path. -/
def climb (chart : Chart) : (fuel limit : Nat) → (top : Level) → (below : List Level) → List Path
  | 0, _, _, _ => []
  | fuel + 1, limit, top, below =>
    if limit = 0 then []
    else if chart.isRoot top.item then [(top :: below).reverse]
    else
      (chart.above top.item).foldl
        (fun found next =>
          if (top :: below).any (·.node == next.node) then found
          else found ++ chart.climb fuel (limit - found.length) next (top :: below))
        []

def size (chart : Chart) : Nat := (chart.columns.map (·.nodes.size)).foldr (· + ·) 0

/-- At most `limit` of the paths from a node to the start rule, as if the element that the node expects
had occurred. A path has no more levels than there are nodes. -/
def paths (chart : Chart) (limit : Nat) (id : NodeId) : List Path :=
  match chart.level? id with
  | none => []
  | some level => chart.climb chart.size limit level []

end Chart

end Typeahead
