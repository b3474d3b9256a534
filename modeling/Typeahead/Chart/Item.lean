import Std.Data.TreeMap
import Typeahead.Grammar.Basic

/-!
Items: how far an alternative of a rule has been matched, and since which position.
-/

namespace Typeahead

/-- A place inside an alternative. -/
structure Item where
  rule : Nat
  alternative : Nat
  /-- The element that is being matched; the number of elements once all are. -/
  index : Nat
  /-- Whether that element has occurred already. -/
  matched : Bool
  /-- The position at which the alternative began. -/
  origin : Nat
deriving DecidableEq

namespace Item

def start (rule alternative origin : Nat) : Item := ⟨rule, alternative, 0, false, origin⟩

/-- The element at the item's place has occurred. -/
def advanced (item : Item) : Item := { item with matched := true }

/-- The item's place moves on to the next element. -/
def skipped (item : Item) : Item := { item with index := item.index + 1, matched := false }

def element? (grammar : Grammar) (item : Item) : Option Element :=
  grammar.element? item.rule item.alternative item.index

def next? (grammar : Grammar) (item : Item) : Option Element :=
  (item.element? grammar).filter fun element => !item.matched || element.multiplicity.isRepeatable

def awaited? (grammar : Grammar) (item : Item) : Option Nat :=
  (item.next? grammar).bind (·.symbol.target?)

def expectsTerminal (grammar : Grammar) (item : Item) : Bool :=
  (item.next? grammar).any (·.symbol.isTerminal)

def isComplete (grammar : Grammar) (item : Item) : Bool :=
  item.index == (grammar.elements item.rule item.alternative).length

def key (item : Item) : List Nat :=
  [item.rule, item.alternative, item.index, item.matched.toNat, item.origin]

theorem key_injective {left right : Item} (same : left.key = right.key) : left = right := by
  obtain ⟨rule, alternative, index, matched, origin⟩ := left
  obtain ⟨rule', alternative', index', matched', origin'⟩ := right
  cases matched <;> cases matched' <;> simp_all [key]

instance : Ord Item := ⟨compareOn key⟩

instance : Std.TransOrd Item := inferInstanceAs (Std.TransCmp (compareOn key))

instance : Std.LawfulEqOrd Item where
  eq_of_compare same := key_injective (Std.LawfulEqOrd.eq_of_compare same)

end Item

end Typeahead
