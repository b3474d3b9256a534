import Typeahead.Text.Alphabetic
import Typeahead.Text.Numeric

/-!
The characters that words are made of.
-/

namespace Typeahead.Text

def isWord (c : Char) : Bool := c == '_' || isAlphabetic c || isNumeric c

def isWordStart (c : Char) : Bool := c == '_' || isAlphabetic c

theorem isWord_of_isWordStart {c : Char} (h : isWordStart c = true) : isWord c = true := by
  simp only [isWordStart, Bool.or_eq_true] at h
  simp only [isWord, Bool.or_eq_true]
  exact .inl h

end Typeahead.Text
