import Typeahead.Proofs.Chart.Stages

/-!
The links of a chart. Whatever the order in which matches were found, a node has the last matches of its
item as links, and no others.
-/

namespace Typeahead

namespace Column

variable {grammar : Grammar} {columns : Array (Column grammar)} {ids : List TokenId}
  {start : Nat} {item previous : Item} {element : Element} {link : Link} {id : NodeId}

/-- A match puts its link at the item that it moves on. -/
theorem Charted.matched (charted : Charted start ids columns)
    (last : LastMatch ids columns id.position item link previous element)
    (inside : id.position < columns.size) :
    ContainsAt columns id.position previous.advanced [link] := by
  have found := last.found
  have index := last.index
  have child := last.child
  have consumes := last.consumes
  obtain ⟨previousId, at', child'⟩ := link
  simp only at found index child consumes
  subst index
  cases child' with
  | token place =>
    obtain ⟨rfl, next, _, token, present, accepted⟩ := child
    rw [next] at inside ⊢
    exact charted.scanned found last.expects present accepted inside
  | rule completed =>
    obtain ⟨here, done, foundDone, complete, refers, origin⟩ := child
    have awaits := Item.awaited?_of_target last.expects refers
    rw [← here] at consumes ⊢
    exact (charted.completed foundDone complete found origin awaits).2 consumes

theorem Charted.mem_links {node : Node} {column : Column grammar} (charted : Charted start ids columns)
    (inChart : columns[id.position]? = some column) (placed : column.nodes[id.slot]? = some node)
    (last : LastMatch ids columns id.position node.item link previous element) : link ∈ node.links := by
  have inside := (Array.getElem?_eq_some_iff.mp inChart).1
  obtain ⟨same, sameChart, contained⟩ :=
    charted.skipsTo (charted.matched last inside) last.skips
  rw [inChart] at sameChart
  cases sameChart
  exact contained.links_subset placed rfl (List.mem_singleton_self link)

end Column

namespace Chart

open Column

/-- The links of a node are exactly the last matches of its item. A last match leads from an item of the
same alternative with the same origin, by a token that a terminal accepts or by a complete item of the
rule that is referred to, and is no empty repetition. -/
theorem mem_links_iff_lastMatch (grammar : Grammar) (start : Nat) (tokens : List Token) (id : NodeId)
    (link : Link) :
    link ∈ (parse grammar start tokens).links id ↔
      ∃ item previous element, itemAt? (parse grammar start tokens).columns id = some item ∧
        previous.rule = item.rule ∧ previous.alternative = item.alternative ∧
        previous.origin = item.origin ∧
        LastMatch (tokens.map Token.id) (parse grammar start tokens).columns id.position item link
          previous element := by
  have charted := (parse_charted grammar start tokens).1
  rw [mem_links]
  constructor
  · intro given
    obtain ⟨column, node, inChart, placed, member⟩ := given
    obtain ⟨previous, element, last⟩ := charted.reached inChart placed member
    have stays := last.skips.same_alternative
    exact ⟨node.item, previous, element, itemAt?_eq_some_iff.mpr ⟨column, node, inChart, placed, rfl⟩,
      stays.1, stays.2.1, stays.2.2, last⟩
  · intro given
    obtain ⟨item, previous, element, found, _, _, _, last⟩ := given
    obtain ⟨column, node, inChart, placed, rfl⟩ := itemAt?_eq_some_iff.mp found
    exact ⟨column, node, inChart, placed, charted.mem_links inChart placed last⟩

end Chart

end Typeahead
