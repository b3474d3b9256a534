import Mathlib.Data.List.TakeWhile
import Typeahead.Text.Blank
import Typeahead.Text.Word

/-!
How the classes of characters lie to each other, and how far runs of one class go when a text goes on.
-/

namespace Typeahead.Text

/-- All blank characters. -/
def blankCodes : List Nat :=
  [0x9, 0xA, 0xB, 0xC, 0xD, 0x20, 0x85, 0xA0, 0x1680, 0x2000, 0x2001, 0x2002, 0x2003, 0x2004, 0x2005,
   0x2006, 0x2007, 0x2008, 0x2009, 0x200A, 0x2028, 0x2029, 0x202F, 0x205F, 0x3000]

theorem mem_blankCodes {c : Char} (blank : isBlank c = true) : c.toNat ∈ blankCodes := by
  simp only [isBlank, CharRanges.contains, blankRanges, Bool.or_eq_true, Bool.if_false_left,
    Bool.and_eq_true, Bool.not_eq_true', decide_eq_false_iff_not, decide_eq_true_eq, Bool.false_eq_true,
    or_false] at blank
  simp only [blankCodes, List.mem_cons, List.not_mem_nil, or_false]
  omega

theorem isWord_of_isBlank {c : Char} (blank : isBlank c = true) : isWord c = false := by
  have apart : ∀ code ∈ blankCodes, code ≠ '_'.toNat ∧ alphabeticRanges.contains code = false ∧
      numericRanges.contains code = false := by decide +kernel
  obtain ⟨mark, letter, number⟩ := apart c.toNat (mem_blankCodes blank)
  have notMark : c ≠ '_' := fun same => mark (congrArg Char.toNat same)
  rw [isWord, isAlphabetic, isNumeric, letter, number]
  simpa using notMark

theorem isBlank_of_isWord {c : Char} (word : isWord c = true) : isBlank c = false := by
  rw [← Bool.not_eq_true]
  intro blank
  rw [isWord_of_isBlank blank] at word
  cases word

theorem isWord_of_isDigit {c : Char} (digit : c.isDigit = true) : isWord c = true := by
  have bounds : 48 ≤ c.toNat ∧ c.toNat ≤ 57 := by
    simp only [Char.isDigit, Bool.and_eq_true, decide_eq_true_eq, ge_iff_le, UInt32.le_iff_toNat_le] at digit
    exact digit
  have numeric : numericRanges.contains c.toNat = true := by
    rw [numericRanges, CharRanges.contains, if_neg (by omega), decide_eq_true bounds.2, Bool.true_or]
  rw [isWord, isNumeric, numeric, Bool.or_true]

section Runs

variable {belongs : Char → Bool} {chars more : List Char}

theorem run_le_length (belongs : Char → Bool) (chars : List Char) :
    run belongs chars ≤ chars.length := (List.takeWhile_sublist _).length_le

theorem run_append (belongs : Char → Bool) (chars more : List Char) :
    run belongs (chars ++ more) =
      if run belongs chars = chars.length then chars.length + run belongs more
      else run belongs chars := by
  unfold run
  rw [List.takeWhile_append]
  split
  · rw [List.length_append]
  · rfl

/-- A run that ends within a text does not depend on how the text goes on. -/
theorem run_append_of_le (within : run belongs (chars ++ more) ≤ chars.length) :
    run belongs (chars ++ more) = run belongs chars := by
  rw [run_append] at within ⊢
  split
  · rename_i whole
    rw [if_pos whole] at within
    omega
  · rfl

theorem take_run (belongs : Char → Bool) (chars : List Char) :
    chars.take (run belongs chars) = chars.takeWhile belongs :=
  (List.prefix_iff_eq_take.mp (List.takeWhile_prefix belongs)).symm

theorem drop_run (belongs : Char → Bool) (chars : List Char) :
    chars.drop (run belongs chars) = chars.dropWhile belongs := by
  have whole : (chars.takeWhile belongs ++ chars.dropWhile belongs).drop (run belongs chars) =
      chars.dropWhile belongs := List.drop_left
  rwa [List.takeWhile_append_dropWhile] at whole

theorem mem_take_run {c : Char} (listed : c ∈ chars.take (run belongs chars)) : belongs c = true := by
  rw [take_run] at listed
  exact List.mem_takeWhile_imp listed

theorem head?_drop_run (belongs : Char → Bool) (chars : List Char) :
    (chars.drop (run belongs chars)).head?.any belongs = false := by
  have ended := List.head?_dropWhile_not belongs chars
  rw [drop_run]
  cases next : (chars.dropWhile belongs).head? with
  | none => rfl
  | some c =>
    rw [next] at ended
    rw [Option.any_some]
    exact ended

end Runs

end Typeahead.Text
