import Typeahead.Grammar.Basic

/-!
The literals that an element is bound to begin with.
-/

namespace Typeahead

/-- Literals that must come, in order, and whether anything unknown may follow them. -/
structure Foresight where
  literals : List String
  stops : Bool
deriving DecidableEq

/-- A walk over elements in order: what it found, and the rules it has entered. -/
structure Walk where
  entered : List Nat := []
  found : List String := []
  stopped : Bool := false

namespace Walk

def stop (walk : Walk) : Walk := { walk with stopped := true }

/-- A token kind whose spelling is fixed by a lexer rule of its name leads into that rule. -/
def ruleOfToken? (grammar : Grammar) (name : String) : Option Nat :=
  (grammar.ruleIndex? name).filter fun rule => (grammar.rules[rule]?).any (·.origin == .lexer)

/-- Walks over one occurrence of a symbol; `enter` walks into a rule. -/
def symbol (grammar : Grammar) (enter : Nat → Walk → Walk) (walk : Walk) : Symbol → Walk
  | .literal text _ => { walk with found := walk.found ++ [text] }
  | .token name _ =>
    match ruleOfToken? grammar name with
    | some rule => enter rule walk
    | none => walk.stop
  | .rule target _ => enter target walk
  | .noneOf _ | .any => walk.stop

/-- An element that may be left out ends the walk before it, one that may repeat ends it after its first
occurrence. -/
def element (grammar : Grammar) (enter : Nat → Walk → Walk) (walk : Walk) (element : Element) :
    Walk :=
  match element.multiplicity with
  | .once => symbol grammar enter walk element.symbol
  | .plus => (symbol grammar enter walk element.symbol).stop
  | .optional | .star => walk.stop

def elements (grammar : Grammar) (enter : Nat → Walk → Walk) (walk : Walk) :
    List Element → Walk
  | [] => walk
  | element :: rest =>
    let next := Walk.element grammar enter walk element
    if next.stopped then next else elements grammar enter next rest

/-- Walks into a rule with a single alternative. No rule is entered twice, and none at all once `fuel`
others have been entered one inside the other. -/
def rule (grammar : Grammar) : (fuel : Nat) → Nat → Walk → Walk
  | 0, _, walk => walk.stop
  | fuel + 1, target, walk =>
    if walk.entered.contains target then walk.stop
    else
      let walk := { walk with entered := target :: walk.entered }
      match grammar.alternatives target with
      | [alternative] => elements grammar (rule grammar fuel) walk alternative.elements
      | _ => walk.stop

end Walk

/-- What an element is bound to begin with. A walk cannot enter more rules than there are. -/
def Grammar.foresee (grammar : Grammar) (element : Element) : Foresight :=
  let walk := Walk.element grammar (Walk.rule grammar grammar.rules.length) {} element
  ⟨walk.found, walk.stopped⟩

end Typeahead
