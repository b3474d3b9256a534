/-!
Results of what may fail.
-/

namespace Typeahead

variable {ε α β : Type} {f : α → β} {result : Except ε α}

theorem map_eq_ok_iff {value : β} :
    result.map f = .ok value ↔ ∃ inner, result = .ok inner ∧ f inner = value := by
  cases result with
  | error failure => simp [Except.map]
  | ok inner => simp [Except.map]

theorem eq_ok_of_toOption {value : α} (found : result.toOption = some value) : result = .ok value := by
  cases result with
  | error failure => cases found
  | ok inner =>
    cases found
    rfl

end Typeahead
