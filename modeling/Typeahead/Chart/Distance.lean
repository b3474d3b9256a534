import Typeahead.Chart.Basic

/-!
How far an element reaches into an input.
-/

namespace Typeahead

namespace Symbol

/-- The most tokens at the front that one occurrence matches. -/
def reach (grammar : Grammar) (tokens : List Token) : Symbol → Nat
  | .rule target _ => (Chart.parse grammar target tokens).endOfMatch?.getD 0
  | symbol => if tokens.head?.any fun token => symbol.accepts token.id then 1 else 0

end Symbol

namespace Element

def reachOnto (grammar : Grammar) (element : Element) : (fuel : Nat) → List Token → Nat
  | 0, _ => 0
  | fuel + 1, tokens =>
    let taken := element.symbol.reach grammar tokens
    if taken = 0 || !element.multiplicity.isRepeatable then taken
    else taken + element.reachOnto grammar fuel (tokens.drop taken)

/-- Every occurrence but the last takes a token, so there are no more than tokens. -/
def reach (grammar : Grammar) (element : Element) (tokens : List Token) : Nat :=
  element.reachOnto grammar tokens.length tokens

end Element

end Typeahead
