import Mathlib.Data.List.TakeWhile
import Typeahead.Text.Blank

/-!
Texts without the blanks around them.
-/

namespace Typeahead.Text

variable {front chars back : List Char}

theorem dropBlank_eq_nil (blank : ∀ c ∈ chars, isBlank c = true) : dropBlank chars = [] :=
  List.dropWhile_eq_nil_iff.mpr blank

theorem dropBlank_eq_self (dark : ∀ c ∈ chars.head?, isBlank c = false) : dropBlank chars = chars := by
  cases chars with
  | nil => rfl
  | cons c rest => exact List.dropWhile_cons_of_neg (by simp [dark c rfl])

theorem dropBlank_append (blank : ∀ c ∈ front, isBlank c = true)
    (dark : ∀ c ∈ chars.head?, isBlank c = false) : dropBlank (front ++ chars) = chars := by
  rw [dropBlank, List.dropWhile_append_of_pos blank]
  exact dropBlank_eq_self dark

theorem trim_eq_nil (blank : ∀ c ∈ chars, isBlank c = true) : trim chars = [] := by
  rw [trim, dropBlank_eq_nil blank]
  rfl

theorem trim_append (behind : ∀ c ∈ back, isBlank c = true) (first : ∀ c ∈ chars.head?, isBlank c = false)
    (last : ∀ c ∈ chars.getLast?, isBlank c = false) : trim (chars ++ back) = chars := by
  cases chars with
  | nil => exact trim_eq_nil behind
  | cons c rest =>
    have left : dropBlank (c :: rest ++ back) = c :: rest ++ back := dropBlank_eq_self first
    rw [trim, left, List.reverse_append,
      dropBlank_append (fun d held => behind d (List.mem_reverse.mp held)) (by rwa [List.head?_reverse]),
      List.reverse_reverse]

/-- What is left of a text without the blanks around it, which begins and ends with none if it is not empty. -/
structure Trims (chars trimmed : List Char) : Prop where
  around : ∃ front back, chars = front ++ trimmed ++ back ∧ (∀ c ∈ front, isBlank c = true) ∧
    ∀ c ∈ back, isBlank c = true
  first : ∀ c ∈ trimmed.head?, isBlank c = false
  last : ∀ c ∈ trimmed.getLast?, isBlank c = false

theorem exists_dropBlank (chars : List Char) :
    ∃ front, chars = front ++ dropBlank chars ∧ (∀ c ∈ front, isBlank c = true) ∧
      ∀ c ∈ (dropBlank chars).head?, isBlank c = false := by
  refine ⟨chars.takeWhile isBlank, List.takeWhile_append_dropWhile.symm, ?_, ?_⟩
  · intro c held
    exact List.mem_takeWhile_imp held
  · intro c first
    have dark := List.head?_dropWhile_not isBlank chars
    rw [← dropBlank, first] at dark
    simpa using dark

theorem trims_trim (chars : List Char) : Trims chars (trim chars) := by
  obtain ⟨front, whole, blankFront, first⟩ := exists_dropBlank chars
  obtain ⟨back, reversed, blankBack, last⟩ := exists_dropBlank (dropBlank chars).reverse
  have rest : dropBlank chars = trim chars ++ back.reverse := by
    rw [trim, ← List.reverse_append, ← reversed, List.reverse_reverse]
  refine ⟨⟨front, back.reverse, ?_, blankFront, ?_⟩, ?_, ?_⟩
  · rw [List.append_assoc, ← rest]
    exact whole
  · intro c held
    exact blankBack c (List.mem_reverse.mp held)
  · intro c begins
    apply first
    rw [rest, List.head?_append, Option.mem_def.mp begins, Option.some_or]
    rfl
  · intro c ends
    apply last
    rwa [trim, List.getLast?_reverse] at ends

theorem trim_eq_iff {trimmed : List Char} : trim chars = trimmed ↔ Trims chars trimmed := by
  constructor
  · intro same
    rw [← same]
    exact trims_trim chars
  · intro trims
    obtain ⟨front, back, whole, blankFront, blankBack⟩ := trims.around
    have dropped : dropBlank chars = dropBlank (trimmed ++ back) := by
      rw [whole, List.append_assoc, dropBlank, List.dropWhile_append_of_pos blankFront]
      rfl
    rw [trim, dropped]
    exact trim_append blankBack trims.first trims.last

end Typeahead.Text
