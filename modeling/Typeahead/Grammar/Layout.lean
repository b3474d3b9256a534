import Typeahead.Grammar.Basic

/-!
The printed form of a grammar. A rule is a sequence of pieces with breaks between them; it stands on
one line if it fits, and otherwise each line takes as many pieces as fit.
-/

namespace Typeahead

namespace Layout

/-- The bytes that a line may have. -/
def width : Nat := 80

/-- Pieces from the second one on, each behind a break. The line has `column` bytes so far; the next
new line is indented by `indent` spaces, those after it by two. -/
def fill (indent column : Nat) : List String → String
  | [] => ""
  | piece :: pieces =>
    let size := piece.utf8ByteSize
    if column + 1 + size ≤ width then " " ++ piece ++ fill 2 (column + 1 + size) pieces
    else
      "\n" ++ String.ofList (List.replicate indent ' ') ++ piece ++ fill 2 (indent + size) pieces

/-- Pieces on as few lines as they need. The second line is not indented if it begins with the second
piece. -/
def paragraph (pieces : List String) : String :=
  let line := " ".intercalate pieces
  if line.utf8ByteSize ≤ width then line
  else match pieces with
    | [] => ""
    | piece :: rest => piece ++ fill 0 piece.utf8ByteSize rest

def close (ending : String) : List String → List String
  | [] => [ending]
  | [piece] => [piece ++ ending]
  | piece :: pieces => piece :: close ending pieces

end Layout

def Symbol.print : Symbol → String
  | .literal text _ => "'" ++ text ++ "'"
  | .token name _ => name
  | .rule _ name => name
  | .noneOf excluded => "~(" ++ "|".intercalate (excluded.map fun id => toString id.toInt) ++ ")"
  | .any => "."

def Element.print (element : Element) : String :=
  (element.label.map (· ++ "=")).getD "" ++ element.symbol.print ++ element.multiplicity.suffix

namespace Alternative

/-- An alternative without elements is written `ε`. -/
def pieces (alternative : Alternative) : List String :=
  let body := if alternative.elements.isEmpty then ["ε"] else alternative.elements.map Element.print
  match alternative.label with
  | some label => Layout.close (" # " ++ label) body
  | none => body

def allPieces : List Alternative → List String
  | [] => []
  | [alternative] => alternative.pieces
  | alternative :: alternatives => Layout.close " |" alternative.pieces ++ allPieces alternatives

end Alternative

def Rule.print (rule : Rule) : String :=
  Layout.paragraph ((rule.name ++ ":") :: Layout.close " ;" (Alternative.allPieces rule.alternatives))

def Grammar.print (grammar : Grammar) : String := "\n".intercalate (grammar.rules.map Rule.print)

end Typeahead
