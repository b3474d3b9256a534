/-!
Classes of characters given by tables of code point ranges, and runs of characters of one class.
-/

namespace Typeahead.Text

/-- Inclusive ranges of code points, in ascending order and apart from each other. -/
abbrev CharRanges := List (Nat × Nat)

/-- The search ends at the first range that begins above the code point. -/
def CharRanges.contains : CharRanges → Nat → Bool
  | [], _ => false
  | (first, last) :: rest, code =>
    if code < first then false else code ≤ last || CharRanges.contains rest code

def run (belongs : Char → Bool) (chars : List Char) : Nat := (chars.takeWhile belongs).length

end Typeahead.Text
