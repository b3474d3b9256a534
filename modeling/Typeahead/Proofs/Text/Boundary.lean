import Typeahead.Text.Blank
import Typeahead.Text.Offset

/-!
Where a text can be cut. The parts of a text that are taken at offsets are there exactly if the offsets
are such places, in order.
-/

namespace Typeahead.Text

theorem byteLength_toList (text : String) : byteLength text.toList = text.utf8ByteSize := by
  rw [← utf8ByteSize_ofList, String.ofList_toList]

/-- A character begins or the text ends at an offset. -/
def IsBoundary (text : String) (offset : Nat) : Prop :=
  ∃ left right, text = left ++ right ∧ left.utf8ByteSize = offset

theorem before?_eq_some_iff {text left : String} {offset : Nat} :
    before? text offset = some left ↔ ∃ right, text = left ++ right ∧ left.utf8ByteSize = offset := by
  simp only [before?, Option.map_eq_some_iff, Prod.exists, cut?_eq_some_iff]
  constructor
  · intro given
    obtain ⟨_, right, whole, rfl⟩ := given
    exact ⟨right, whole⟩
  · intro given
    obtain ⟨right, whole⟩ := given
    exact ⟨left, right, whole, rfl⟩

theorem after?_eq_some_iff {text right : String} {offset : Nat} :
    after? text offset = some right ↔ ∃ left, text = left ++ right ∧ left.utf8ByteSize = offset := by
  simp only [after?, Option.map_eq_some_iff, Prod.exists, cut?_eq_some_iff]
  constructor
  · intro given
    obtain ⟨left, _, whole, rfl⟩ := given
    exact ⟨left, whole⟩
  · intro given
    obtain ⟨left, whole⟩ := given
    exact ⟨left, right, whole, rfl⟩

theorem between?_eq_some_iff {text middle : String} {start stop : Nat} :
    between? text start stop = some middle ↔ ∃ left right, text = left ++ middle ++ right ∧
      left.utf8ByteSize = start ∧ start + middle.utf8ByteSize = stop := by
  simp only [between?, Option.bind_eq_some_iff, before?_eq_some_iff, after?_eq_some_iff]
  constructor
  · intro given
    obtain ⟨_, ⟨right, whole, size⟩, left, rfl, rfl⟩ := given
    exact ⟨left, right, whole, rfl, by rw [← size, String.utf8ByteSize_append]⟩
  · intro given
    obtain ⟨left, right, whole, rfl, size⟩ := given
    exact ⟨left ++ middle, ⟨right, whole, by rw [String.utf8ByteSize_append, size]⟩, left, rfl, rfl⟩

theorem before?_append (left middle right : String) :
    before? (left ++ middle ++ right) left.utf8ByteSize = some left :=
  before?_eq_some_iff.mpr ⟨middle ++ right, String.append_assoc, rfl⟩

theorem after?_append (left right : String) :
    after? (left ++ right) left.utf8ByteSize = some right := after?_eq_some_iff.mpr ⟨left, rfl, rfl⟩

theorem between?_append (left middle right : String) :
    between? (left ++ middle ++ right) left.utf8ByteSize (left ++ middle).utf8ByteSize = some middle :=
  between?_eq_some_iff.mpr ⟨left, right, rfl, rfl, (String.utf8ByteSize_append ..).symm⟩

theorem splice_append (left middle right new : String) :
    splice (left ++ middle ++ right) left.utf8ByteSize (left ++ middle).utf8ByteSize new =
      left ++ new ++ right := by
  rw [splice, after?_append, before?_append, Option.getD_some, Option.getD_some]

theorem append_inj_of_byteLength {left right left' right' : List Char}
    (same : left ++ right = left' ++ right') (sizes : byteLength left = byteLength left') :
    left = left' ∧ right = right' := by
  have first : splitChars (byteLength left) (left ++ right) = some (left, right) :=
    splitChars_eq_some_iff.mpr ⟨rfl, rfl⟩
  have second : splitChars (byteLength left) (left ++ right) = some (left', right') :=
    splitChars_eq_some_iff.mpr ⟨same, sizes.symm⟩
  rw [first] at second
  cases second
  exact ⟨rfl, rfl⟩

/-- Two cuts of one text: what one has in front of the other is the same piece on both sides. -/
theorem append_eq_append_of_le {left right left' right' : String} (same : left ++ right = left' ++ right')
    (ordered : left.utf8ByteSize ≤ left'.utf8ByteSize) :
    ∃ middle, left' = left ++ middle ∧ right = middle ++ right' := by
  have chars := congrArg String.toList same
  rw [String.toList_append, String.toList_append, List.append_eq_append_iff] at chars
  have asText : ∀ {a b c : String}, a.toList = b.toList ++ c.toList → a = b ++ c :=
    fun given => String.toList_injective (by rw [given, String.toList_append])
  rcases chars with ⟨middle, first, second⟩ | ⟨middle, first, second⟩
  · refine ⟨String.ofList middle, asText ?_, asText ?_⟩
    · simpa using first
    · simpa using second
  · have sizes : left.utf8ByteSize = left'.utf8ByteSize + byteLength middle := by
      rw [← utf8ByteSize_ofList, ← String.utf8ByteSize_append]
      exact congrArg String.utf8ByteSize (asText (by simpa using first))
    have empty : middle = [] := byteLength_eq_zero_iff.mp (by omega)
    subst empty
    rw [List.append_nil] at first
    rw [List.nil_append] at second
    refine ⟨"", asText (by simpa using first.symm), asText (by simpa using second.symm)⟩

theorem isBoundary_iff_before? {text : String} {offset : Nat} :
    IsBoundary text offset ↔ ∃ left, before? text offset = some left := by
  simp only [IsBoundary, before?_eq_some_iff]

theorem isBoundary_iff_after? {text : String} {offset : Nat} :
    IsBoundary text offset ↔ ∃ right, after? text offset = some right := by
  simp only [IsBoundary, after?_eq_some_iff]
  exact exists_comm

namespace IsBoundary

variable {text left right : String} {offset start stop : Nat}

theorem le (boundary : IsBoundary text offset) : offset ≤ text.utf8ByteSize := by
  obtain ⟨left, right, rfl, rfl⟩ := boundary
  rw [String.utf8ByteSize_append]
  omega

theorem of_append (left right : String) : IsBoundary (left ++ right) left.utf8ByteSize :=
  ⟨left, right, rfl, rfl⟩

theorem size (text : String) : IsBoundary text text.utf8ByteSize :=
  ⟨text, "", by rw [String.append_empty], rfl⟩

theorem append_right (boundary : IsBoundary left offset) (right : String) :
    IsBoundary (left ++ right) offset := by
  obtain ⟨front, back, rfl, size⟩ := boundary
  exact ⟨front, back ++ right, String.append_assoc .., size⟩

theorem append_left (boundary : IsBoundary right offset) (left : String) :
    IsBoundary (left ++ right) (left.utf8ByteSize + offset) := by
  obtain ⟨front, back, rfl, rfl⟩ := boundary
  exact ⟨left ++ front, back, (String.append_assoc ..).symm, String.utf8ByteSize_append ..⟩

theorem of_max (first : IsBoundary text start) (second : IsBoundary text stop) :
    IsBoundary text (max start stop) := by
  rcases Nat.le_total start stop with ordered | ordered
  · rwa [Nat.max_eq_right ordered]
  · rwa [Nat.max_eq_left ordered]

/-- A text falls into three parts at two places where it can be cut. -/
theorem split (first : IsBoundary text start) (second : IsBoundary text stop) (ordered : start ≤ stop) :
    ∃ left middle right, text = left ++ middle ++ right ∧ left.utf8ByteSize = start ∧
      start + middle.utf8ByteSize = stop := by
  obtain ⟨left, rest, rfl, rfl⟩ := first
  obtain ⟨front, right, same, rfl⟩ := second
  obtain ⟨middle, rfl, rfl⟩ := append_eq_append_of_le same ordered
  exact ⟨left, middle, right, (String.append_assoc ..).symm, rfl, (String.utf8ByteSize_append ..).symm⟩

end IsBoundary

theorem trimStart_suffix (text : String) : ∃ blanks, text = blanks ++ trimStart text := by
  refine ⟨String.ofList (text.toList.takeWhile isBlank), String.toList_injective ?_⟩
  simp [trimStart, dropBlank]

end Typeahead.Text
