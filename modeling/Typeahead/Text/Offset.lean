/-!
Byte offsets into texts. An offset is valid if a character begins or the text ends there; a text is
cut in two at a valid offset and nowhere else (`cut?_eq_some_iff`).
-/

namespace Typeahead.Text

def byteLength : List Char → Nat
  | [] => 0
  | c :: cs => c.utf8Size + byteLength cs

/-- Characters before and after a byte offset. -/
def splitChars (offset : Nat) : List Char → Option (List Char × List Char)
  | [] => if offset = 0 then some ([], []) else none
  | c :: cs =>
    if offset = 0 then some ([], c :: cs)
    else if c.utf8Size ≤ offset then
      (splitChars (offset - c.utf8Size) cs).map fun halves => (c :: halves.1, halves.2)
    else none

def cut? (text : String) (offset : Nat) : Option (String × String) :=
  (splitChars offset text.toList).map fun halves => (String.ofList halves.1, String.ofList halves.2)

def before? (text : String) (offset : Nat) : Option String := (cut? text offset).map (·.1)

def after? (text : String) (offset : Nat) : Option String := (cut? text offset).map (·.2)

def between? (text : String) (start stop : Nat) : Option String :=
  (before? text stop).bind (after? · start)

/-- Puts `new` in the place of the bytes from `start` to `stop`. All of the text counts as being
before an invalid `start`, and nothing as being after an invalid `stop`. -/
def splice (text : String) (start stop : Nat) (new : String) : String :=
  (before? text start).getD text ++ new ++ (after? text stop).getD ""

theorem byteLength_eq_zero_iff {chars : List Char} : byteLength chars = 0 ↔ chars = [] := by
  cases chars with
  | nil => simp [byteLength]
  | cons c cs =>
    have positive := c.utf8Size_pos
    simp only [byteLength, reduceCtorEq, iff_false]
    omega

theorem byteLength_append (left right : List Char) :
    byteLength (left ++ right) = byteLength left + byteLength right := by
  induction left with
  | nil => simp [byteLength]
  | cons c cs ih => simp only [List.cons_append, byteLength, ih]; omega

theorem utf8ByteSize_ofList (chars : List Char) :
    (String.ofList chars).utf8ByteSize = byteLength chars := by
  induction chars with
  | nil => rfl
  | cons c cs ih =>
    have split : String.ofList (c :: cs) = String.singleton c ++ String.ofList cs := by
      apply String.toList_injective
      simp
    rw [split, String.utf8ByteSize_append, ih, byteLength]
    simp

theorem splitChars_eq_some_iff {offset : Nat} {chars left right : List Char} :
    splitChars offset chars = some (left, right) ↔
      chars = left ++ right ∧ byteLength left = offset := by
  induction chars generalizing offset left with
  | nil =>
    by_cases zero : offset = 0
    · subst zero
      cases left <;> cases right <;> simp [splitChars, byteLength]
    · simp only [splitChars, if_neg zero, reduceCtorEq, false_iff, not_and]
      intro empty
      obtain ⟨rfl, _⟩ := List.append_eq_nil_iff.1 empty.symm
      exact fun size => zero size.symm
  | cons c cs ih =>
    have positive := c.utf8Size_pos
    by_cases zero : offset = 0
    · subst zero
      rw [byteLength_eq_zero_iff]
      simp only [splitChars, if_true, Option.some.injEq, Prod.mk.injEq]
      constructor
      · intro given
        obtain ⟨rfl, rfl⟩ := given
        simp
      · intro given
        obtain ⟨whole, rfl⟩ := given
        simpa using whole
    · simp only [splitChars, if_neg zero]
      split
      · rename_i fits
        simp only [Option.map_eq_some_iff, Prod.mk.injEq]
        constructor
        · intro given
          obtain ⟨⟨rest, tail⟩, found, rfl, rfl⟩ := given
          obtain ⟨whole, size⟩ := ih.1 found
          simp only [byteLength, List.cons_append, whole, true_and]
          omega
        · intro given
          obtain ⟨whole, size⟩ := given
          cases left with
          | nil => simp only [byteLength] at size; omega
          | cons d ds =>
            simp only [List.cons_append, List.cons.injEq] at whole
            obtain ⟨rfl, whole⟩ := whole
            simp only [byteLength] at size
            exact ⟨(ds, right), ih.2 ⟨whole, by omega⟩, rfl, rfl⟩
      · rename_i exceeds
        simp only [reduceCtorEq, false_iff, not_and]
        intro whole size
        cases left with
        | nil => simp only [byteLength] at size; omega
        | cons d ds =>
          simp only [List.cons_append, List.cons.injEq] at whole
          obtain ⟨rfl, _⟩ := whole
          simp only [byteLength] at size
          omega

theorem cut?_eq_some_iff {text left right : String} {offset : Nat} :
    cut? text offset = some (left, right) ↔ text = left ++ right ∧ left.utf8ByteSize = offset := by
  simp only [cut?, Option.map_eq_some_iff, Prod.mk.injEq]
  constructor
  · intro given
    obtain ⟨⟨front, back⟩, found, rfl, rfl⟩ := given
    obtain ⟨whole, size⟩ := splitChars_eq_some_iff.1 found
    refine ⟨String.toList_injective ?_, by rw [utf8ByteSize_ofList]; exact size⟩
    simpa using whole
  · intro given
    obtain ⟨rfl, size⟩ := given
    refine ⟨(left.toList, right.toList), splitChars_eq_some_iff.2 ⟨by simp, ?_⟩, by simp, by simp⟩
    rw [← utf8ByteSize_ofList]
    simpa using size

end Typeahead.Text
