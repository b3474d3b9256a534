import Mathlib.Order.Lattice
import Typeahead.Sorting

/-!
Lists kept in ascending order are in that order, and strictly so where no two elements share a key.
-/

namespace Typeahead

variable {α κ : Type} [LinearOrder κ] [DecidableLT κ]

theorem pairwise_insertByKey (key : α → κ) (x : α) {xs : List α}
    (ascending : xs.Pairwise (key · ≤ key ·)) : (insertByKey key x xs).Pairwise (key · ≤ key ·) := by
  induction xs with
  | nil => exact List.pairwise_singleton ..
  | cons y ys ih =>
    obtain ⟨least, others⟩ := List.pairwise_cons.mp ascending
    rw [insertByKey]
    split
    · rename_i below
      apply List.Pairwise.cons
      · intro other listed
        rcases List.mem_cons.mp ((insertByKey_perm key x ys).mem_iff.mp listed) with rfl | listed
        · exact le_of_lt below
        · exact least other listed
      · exact ih others
    · rename_i above
      apply List.Pairwise.cons
      · intro other listed
        rcases List.mem_cons.mp listed with rfl | listed
        · exact not_lt.mp above
        · exact le_trans (not_lt.mp above) (least other listed)
      · exact ascending

theorem pairwise_sortByKey (key : α → κ) (xs : List α) :
    (sortByKey key xs).Pairwise (key · ≤ key ·) := by
  induction xs with
  | nil => exact .nil
  | cons x xs ih => exact pairwise_insertByKey key x ih

theorem pairwise_lt_sortByKey (key : α → κ) {xs : List α} (distinct : (xs.map key).Nodup) :
    (sortByKey key xs).Pairwise (key · < key ·) := by
  have apart : ((sortByKey key xs).map key).Nodup :=
    ((sortByKey_perm key xs).map key).nodup_iff.mpr distinct
  exact (pairwise_sortByKey key xs).imp₂ (fun _ _ => lt_of_le_of_ne) (List.pairwise_map.mp apart)

end Typeahead
