import Typeahead.Chart.Path

/-!
All paths of a chart. A limit cuts their list, and has no other effect.
-/

namespace Typeahead

namespace Chart

/-- All paths that go on from `below`, which holds the levels so far with the topmost first. -/
def climbAll (chart : Chart) : (fuel : Nat) → (top : Level) → (below : List Level) → List Path
  | 0, _, _ => []
  | fuel + 1, top, below =>
    if chart.isRoot top.item then [(top :: below).reverse]
    else (chart.above top.item).flatMap fun next =>
      if (top :: below).any (·.node == next.node) then [] else chart.climbAll fuel next (top :: below)

/-- The paths from a node to the start rule, as if the element that the node expects had occurred. -/
def allPaths (chart : Chart) (id : NodeId) : List Path :=
  (chart.level? id).elim [] fun level => chart.climbAll chart.size level []

/-- What is added under a limit, a part at a time, is the front of all parts. -/
theorem foldl_append_take {α β : Type} (limit : Nat) (skips : α → Bool) (parts : α → List β)
    (entries : List α) (found : List β) :
    entries.foldl (fun found entry =>
        if skips entry then found else found ++ (parts entry).take (limit - found.length))
        (found.take limit) =
      (found ++ entries.flatMap fun entry => if skips entry then [] else parts entry).take limit := by
  induction entries generalizing found with
  | nil => rw [List.flatMap_nil, List.append_nil]; rfl
  | cons entry entries ih =>
    rw [List.foldl_cons, List.flatMap_cons, ← List.append_assoc, ← ih]
    congr 1
    split
    · rw [List.append_nil]
    · rw [List.take_append, List.length_take]
      congr 2
      omega

theorem climb_eq_take (chart : Chart) (fuel limit : Nat) (top : Level) (below : List Level) :
    chart.climb fuel limit top below = (chart.climbAll fuel top below).take limit := by
  induction fuel generalizing limit top below with
  | zero => rw [climb, climbAll, List.take_nil]
  | succ fuel ih =>
    rw [climb, climbAll]
    split
    · rename_i none
      rw [none, List.take_zero]
    · rename_i some
      split
      · exact (List.take_of_length_le (by rw [List.length_singleton]; omega)).symm
      · simp only [ih]
        have joined := foldl_append_take limit (fun next => (top :: below).any (·.node == next.node))
          (chart.climbAll fuel · (top :: below)) (chart.above top.item) []
        rwa [List.take_nil, List.nil_append] at joined

theorem paths_eq_take (chart : Chart) (limit : Nat) (id : NodeId) :
    chart.paths limit id = (chart.allPaths id).take limit := by
  rw [paths, allPaths]
  cases chart.level? id with
  | none => exact List.take_nil.symm
  | some level => exact chart.climb_eq_take _ limit level []

end Chart

end Typeahead
