import Typeahead.Text.CharClass

/-!
Blank characters, the Unicode property `White_Space`, and texts without the blanks around them.
-/

namespace Typeahead.Text

/-- The code points with the property `White_Space`. -/
def blankRanges : CharRanges :=
  [(0x9, 0xD), (0x20, 0x20), (0x85, 0x85), (0xA0, 0xA0), (0x1680, 0x1680), (0x2000, 0x200A),
   (0x2028, 0x2029), (0x202F, 0x202F), (0x205F, 0x205F), (0x3000, 0x3000)]

def isBlank (c : Char) : Bool := blankRanges.contains c.toNat

def dropBlank (chars : List Char) : List Char := chars.dropWhile isBlank

def trim (chars : List Char) : List Char := (dropBlank (dropBlank chars).reverse).reverse

def trimStart (text : String) : String := String.ofList (dropBlank text.toList)

end Typeahead.Text
