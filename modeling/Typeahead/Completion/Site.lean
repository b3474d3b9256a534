import Typeahead.Chart.Path
import Typeahead.Grammar.Mandatory

/-!
Sites: elements that may come next in an input, each with the elements around it; and what is asked
about them.
-/

namespace Typeahead

/-- An element on a path, seen from the element that expects input. -/
structure Site where
  grammar : Grammar
  level : Level
  /-- The levels around it, up to that of the start rule. -/
  enclosing : List Level
  /-- How far it is above the element that expects input. -/
  depth : Nat

namespace Site

def element (site : Site) : Element := site.level.element

def parent? (site : Site) : Option Site :=
  match site.enclosing with
  | [] => none
  | level :: enclosing => some ⟨site.grammar, level, enclosing, site.depth + 1⟩

/-- The literals that must come behind an element of the given multiplicity, where `rest` is what its
alternative holds behind it and `outer` is what must come behind the alternative. Behind an element
that may occur again nothing is certain. -/
def literalsAlong (grammar : Grammar) (outer : List String) :
    Multiplicity → List Element → List String
  | multiplicity, [] => if multiplicity.isRepeatable then [] else outer
  | multiplicity, next :: rest =>
    if multiplicity.isRepeatable || next.multiplicity.isOptional then []
    else
      let foresight := grammar.foresee next
      if foresight.stops then foresight.literals
      else foresight.literals ++ literalsAlong grammar outer next.multiplicity rest

def literalsBehind (grammar : Grammar) : List Level → List String
  | [] => []
  | level :: enclosing =>
    let elements := grammar.elements level.item.rule level.item.alternative
    literalsAlong grammar (literalsBehind grammar enclosing) level.element.multiplicity
      (elements.drop (level.item.index + 1))

/-- The literals that must come behind the element, whatever the input goes on with. -/
def mandatoryAfter (site : Site) : List String :=
  literalsBehind site.grammar (site.level :: site.enclosing)

/-- The sites on a path that suggestions are asked for: the innermost one, and each one around it as
long as nothing else of its alternative is parsed. -/
def chain (grammar : Grammar) (depth : Nat) : Path → List Site
  | [] => []
  | level :: enclosing =>
    ⟨grammar, level, enclosing, depth⟩ ::
      if level.parsed = 1 then chain grammar (depth + 1) enclosing else []

end Site

/-- A text that may be put in. A caret inside it marks a place that is still to be filled in. -/
structure Suggestion where
  content : String
  caret : Option Nat := none
  description : Option String := none
deriving DecidableEq

/-- Where suggestions come from: the texts for a site, given what has been typed there so far. -/
abbrev Source := Site → String → Except String (List Suggestion)

/-- What a source is asked about one path: its sites in order, until one has suggestions. -/
structure Inquiry where
  /-- The position of the chart at which the sites expect input. -/
  position : Nat
  typed : String
  sites : List Site

structure Offer where
  position : Nat
  typed : String
  site : Site
  suggestions : List Suggestion

namespace Inquiry

/-- Whether a source answers with suggestions. A failure counts as none. -/
def answer? (source : Source) (inquiry : Inquiry) (site : Site) : Option Offer :=
  match source site inquiry.typed with
  | .ok (first :: others) => some ⟨inquiry.position, inquiry.typed, site, first :: others⟩
  | _ => none

def offer? (source : Source) (inquiry : Inquiry) : Option Offer :=
  inquiry.sites.findSome? (inquiry.answer? source)

def askedFrom (source : Source) (inquiry : Inquiry) : List Site → List Site
  | [] => []
  | site :: sites =>
    site :: if (inquiry.answer? source site).isSome then [] else inquiry.askedFrom source sites

def asked (source : Source) (inquiry : Inquiry) : List Site :=
  inquiry.askedFrom source inquiry.sites

end Inquiry

end Typeahead
