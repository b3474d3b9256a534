import Mathlib.Order.Bounds.Defs
import Typeahead.Proofs.Completion.Skipping

/-!
How far literals reach that stand in a text already. They are measured up to the first place in front of
which all their characters are there, and not at all if one of them is missing (`skipLiterals_measures`).
-/

namespace Typeahead

open Text

/-- The text in front of a place consists of the expected characters, but for blanks. -/
def HoldsUpTo (expected : List Char) (text : String) (stop : Nat) : Prop :=
  ∃ there, Text.before? text stop = some there ∧ dark there.toList = expected

section Characters

variable {chars expected : List Char}

/-- Characters that begin with those expected, but for blanks, do so up to the last of them. -/
theorem exists_dark_eq_of_prefix (nonempty : expected ≠ []) (begins : expected <+: dark chars) :
    ∃ front last behind, chars = front ++ [last] ++ behind ∧ dark (front ++ [last]) = expected ∧
      isBlank last = false := by
  obtain ⟨others, whole⟩ := begins
  rw [← List.dropLast_append_getLast nonempty, List.append_assoc, List.singleton_append] at whole
  obtain ⟨front, rest, rfl, shown, remain⟩ := List.filter_eq_append_iff.mp whole.symm
  obtain ⟨gap, behind, rfl, blanks, shows, _⟩ := List.filter_eq_cons_iff.mp remain
  have gapBlank : dark gap = [] := List.filter_eq_nil_iff.mpr blanks
  have lastDark : isBlank (expected.getLast nonempty) = false := by simpa using shows
  refine ⟨front ++ gap, expected.getLast nonempty, behind, by simp, ?_, lastDark⟩
  rw [dark_append, dark_append, gapBlank, List.append_nil, dark_cons_of_dark lastDark,
    show dark front = expected.dropLast from shown]
  exact List.dropLast_append_getLast nonempty

theorem skipFrom_eq_zero (offset : Nat) (absent : ¬ expected <+: dark chars) :
    skipFrom offset chars expected = 0 := by
  induction chars generalizing offset expected with
  | nil => rfl
  | cons c chars ih =>
    cases expected with
    | nil => rfl
    | cons e others =>
      rw [skipFrom]
      cases blank : isBlank c with
      | true =>
        rw [dark_cons_of_blank blank] at absent
        rw [if_pos rfl, ih _ absent]
      | false =>
        rw [dark_cons_of_dark blank, List.cons_prefix_cons] at absent
        rw [if_neg Bool.false_ne_true]
        by_cases same : c = e
        · have missing : ¬ others <+: dark chars := fun begins => absent ⟨same.symm, begins⟩
          have unfinished : others.isEmpty = false := by
            cases others with
            | nil => exact absurd List.nil_prefix missing
            | cons => rfl
          rw [if_pos same, unfinished, if_neg Bool.false_ne_true, ih _ missing]
        · rw [if_neg same]

end Characters

section Texts

variable {literals : List String} {text there : String}

theorem exists_beginsWith (nonempty : dark (String.join literals).toList ≠ [])
    (begins : dark (String.join literals).toList <+: dark text.toList) :
    ∃ (front : String) (last : Char), isBlank last = false ∧
      BeginsWith literals text (front.push last) := by
  obtain ⟨front, last, behind, whole, same, shows⟩ := exists_dark_eq_of_prefix nonempty begins
  have chars : ((String.ofList front).push last).toList = front ++ [last] := by simp
  refine ⟨String.ofList front, last, shows, ?_⟩
  exact {
    front := ⟨String.ofList behind, String.toList_injective (by
      rw [String.toList_append, chars, String.toList_ofList, whole])⟩
    same := by rw [chars, same]
    nonempty
    ends := by rw [chars, List.getLast?_concat, Option.any_some, shows] }

/-- No place before the end of the last literal has all of them in front. -/
theorem BeginsWith.isLeast (begins : BeginsWith literals text there) :
    IsLeast {stop | HoldsUpTo (dark (String.join literals).toList) text stop} there.utf8ByteSize := by
  obtain ⟨behind, rfl⟩ := begins.front
  refine ⟨⟨there, before?_eq_some_iff.mpr ⟨behind, rfl, rfl⟩, begins.same⟩, ?_⟩
  rintro stop ⟨other, cut, held⟩
  obtain ⟨rest, whole, rfl⟩ := before?_eq_some_iff.mp cut
  rcases Nat.le_total there.utf8ByteSize other.utf8ByteSize with later | earlier
  · exact later
  · -- `more` shows no character, and yet the literals would have to end in it
    obtain ⟨more, rfl, _⟩ := append_eq_append_of_le whole.symm earlier
    have shown := begins.same
    rw [String.toList_append, dark_append, held, List.append_right_eq_self] at shown
    have ends := begins.ends
    rw [String.toList_append, List.getLast?_append] at ends
    have nothing : more.toList = [] := by
      refine eq_nil_of_dark_eq_nil shown ?_
      cases last : more.toList.getLast? with
      | none => rfl
      | some c => rwa [last, Option.some_or] at ends
    rw [String.utf8ByteSize_append, ← byteLength_toList more, nothing]
    exact Nat.le_refl _

theorem skipLiterals_eq_zero (absent : ¬ dark (String.join literals).toList <+: dark text.toList) :
    skipLiterals text literals = 0 := skipFrom_eq_zero 0 absent

theorem skipLiterals_eq_zero_of_dark_eq_nil (nothing : dark (String.join literals).toList = []) :
    skipLiterals text literals = 0 := by
  rw [skipLiterals, show (String.join literals).toList.filter _ = [] from nothing]
  cases text.toList <;> rfl

end Texts

/-- Literals are measured without a fault, up to the first place in front of which all their characters are
there. A character that is not blank ends there. The measure is zero if they have no such character or the
text does not begin with them. -/
theorem skipLiterals_measures (text : String) (literals : List String) :
    Checked.skipLiterals text literals = .ok (skipLiterals text literals) ∧
      Text.IsBoundary text (skipLiterals text literals) ∧
      skipLiterals text literals ≤ text.utf8ByteSize ∧
      let expected := dark (String.join literals).toList
      if expected = [] ∨ ¬ expected <+: dark text.toList then skipLiterals text literals = 0
      else IsLeast {stop | HoldsUpTo expected text stop} (skipLiterals text literals) ∧
        ∃ (front : String) (last : Char),
          Text.before? text (skipLiterals text literals) = some (front.push last) ∧
          isBlank last = false := by
  have boundary := skipLiterals_isBoundary text literals
  refine ⟨Checked.skipLiterals_eq text literals, boundary, boundary.le, ?_⟩
  dsimp only
  split
  · rename_i missing
    rcases missing with nothing | absent
    · exact skipLiterals_eq_zero_of_dark_eq_nil nothing
    · exact skipLiterals_eq_zero absent
  · rename_i present
    obtain ⟨nonempty, begins⟩ := not_or.mp present
    obtain ⟨front, last, shows, stands⟩ := exists_beginsWith nonempty (not_not.mp begins)
    rw [skipLiterals_of_beginsWith stands]
    obtain ⟨behind, whole⟩ := stands.front
    exact ⟨stands.isLeast, front, last, before?_eq_some_iff.mpr ⟨behind, whole, rfl⟩, shows⟩

/-- Blanks of several bytes count between the characters, and those behind the last one do not. -/
example : skipLiterals "\u00a0é\u3000ß\u2003x" ["é ", "ß"] = 9 := by decide

end Typeahead
