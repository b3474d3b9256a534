/-!
Lists kept in ascending order of a key.
-/

namespace Typeahead

variable {α κ : Type} [LT κ] [DecidableLT κ]

/-- Puts an element in front of the first one whose key is not below its own. -/
def insertByKey (key : α → κ) (x : α) : List α → List α
  | [] => [x]
  | y :: ys => if key y < key x then y :: insertByKey key x ys else x :: y :: ys

/-- The elements in ascending order of their keys; those with equal keys stay in their order. -/
def sortByKey (key : α → κ) (xs : List α) : List α := xs.foldr (insertByKey key) []

theorem insertByKey_perm (key : α → κ) (x : α) (xs : List α) :
    (insertByKey key x xs).Perm (x :: xs) := by
  induction xs with
  | nil => exact .refl _
  | cons y ys ih =>
    simp only [insertByKey]
    split
    · exact (ih.cons y).trans (.swap x y ys)
    · exact .refl _

theorem sortByKey_perm (key : α → κ) (xs : List α) : (sortByKey key xs).Perm xs := by
  induction xs with
  | nil => exact .refl _
  | cons x xs ih => exact (insertByKey_perm key x _).trans (ih.cons x)

end Typeahead
