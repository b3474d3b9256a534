import Mathlib.Data.List.Chain
import Typeahead.Proofs.Chart.Recognition

/-!
Derivations of items: the matches of elements that make up the tokens from an item's origin on. A derivation
grows by one match at a time, and each one but the empty one has a last match.
-/

open Computability

namespace Typeahead

/-- A piece of the input that is matched by an element, which is given by its place in the alternative. -/
structure Match where
  index : Nat
  start : Nat
  stop : Nat
deriving DecidableEq

namespace Match

/-- Pieces lie end to end between two positions. -/
def EndToEnd : (start stop : Nat) → List Match → Prop
  | start, stop, [] => start = stop
  | start, stop, piece :: pieces => piece.start = start ∧ EndToEnd piece.stop stop pieces

/-- No match repeats the element that was matched last without a token. -/
def Consuming (pieces : List Match) : Prop :=
  pieces.IsChain fun piece next => piece.index = next.index → next.start < next.stop

variable {pieces : List Match} {last : Match} {start stop : Nat}

theorem endToEnd_concat : EndToEnd start stop (pieces ++ [last]) ↔
    EndToEnd start last.start pieces ∧ last.stop = stop := by
  induction pieces generalizing start with
  | nil => exact and_congr_left' eq_comm
  | cons piece pieces ih =>
    rw [List.cons_append, EndToEnd, EndToEnd, ih, and_assoc]

/-- Pieces that lie end to end lie between the two positions. -/
theorem EndToEnd.within (joined : EndToEnd start stop pieces)
    (ordered : ∀ piece ∈ pieces, piece.start ≤ piece.stop) :
    start ≤ stop ∧ ∀ piece ∈ pieces, start ≤ piece.start ∧ piece.stop ≤ stop := by
  induction pieces generalizing start with
  | nil => exact ⟨Nat.le_of_eq joined, fun _ none => absurd none List.not_mem_nil⟩
  | cons piece pieces ih =>
    obtain ⟨rfl, behind⟩ := joined
    obtain ⟨first, others⟩ := List.forall_mem_cons.mp ordered
    obtain ⟨upTo, inside⟩ := ih behind others
    refine ⟨Nat.le_trans first upTo, List.forall_mem_cons.mpr ⟨⟨Nat.le_refl _, upTo⟩, ?_⟩⟩
    exact fun later listed => ⟨Nat.le_trans first (inside later listed).1, (inside later listed).2⟩

theorem consuming_concat : Consuming (pieces ++ [last]) ↔ Consuming pieces ∧
    ∀ before, pieces.getLast? = some before → before.index = last.index → last.start < last.stop := by
  rw [Consuming, List.isChain_append]
  simp [Consuming]

end Match

namespace Item

/-- The element at a place of an item's alternative need not occur. -/
def omits (grammar : Grammar) (item : Item) (index : Nat) : Bool :=
  (grammar.element? item.rule item.alternative index).any (·.multiplicity.isOptional)

def repeats (grammar : Grammar) (item : Item) (index : Nat) : Bool :=
  (grammar.element? item.rule item.alternative index).any (·.multiplicity.isRepeatable)

/-- A match of an element in an item's alternative: by one token that it accepts, or by tokens that the rule
derives to which it refers. -/
def Matches (grammar : Grammar) (ids : List TokenId) (item : Item) (piece : Match) : Prop :=
  ∃ element, grammar.element? item.rule item.alternative piece.index = some element ∧
    piece.start ≤ piece.stop ∧ piece.stop ≤ ids.length ∧
    span ids piece.start piece.stop ∈ element.symbol.language grammar.language

/-- Matches that lead an item from its origin to a position: they are in the order of the elements, of which
only repeatable ones occur again, and lie end to end. What does not occur before the item's place may be left
out, and the element at that place is the last one to have occurred if the item says that it has. -/
structure Derivation (grammar : Grammar) (ids : List TokenId) (item : Item) (position : Nat)
    (pieces : List Match) : Prop where
  ascends : pieces.Pairwise fun piece later => piece.index ≤ later.index ∧
    (piece.index = later.index → item.repeats grammar piece.index = true)
  inside : ∀ piece ∈ pieces, piece.index ≤ item.index
  joined : Match.EndToEnd item.origin position pieces
  matched : ∀ piece ∈ pieces, item.Matches grammar ids piece
  omitted : ∀ index, index < item.index → (∀ piece ∈ pieces, piece.index ≠ index) →
    item.omits grammar index = true
  last : pieces.getLast?.map Match.index = some item.index ↔ item.matched = true

/-- What an item was before the last match of its derivation. -/
def beforeLast (item : Item) (pieces : List Match) (last : Match) : Item :=
  { item with index := last.index, matched := pieces.getLast?.map Match.index == some last.index }

/-- What an item was before the first match of its derivation. -/
def beforeFirst (item : Item) (pieces : List Match) : Item :=
  { item with index := (pieces.head?.map Match.index).getD item.index, matched := false }

/-- No element in front of an item can match without a token. -/
def FrontTakes (grammar : Grammar) (item : Item) : Prop :=
  ∀ index element, index < item.index →
    grammar.element? item.rule item.alternative index = some element →
    [] ∉ element.symbol.language grammar.language

variable {grammar : Grammar} {ids : List TokenId} {item previous : Item} {element : Element}
  {pieces : List Match} {piece last : Match} {position stop : Nat}

theorem canSkip_of_omits (omissible : item.omits grammar item.index = true) :
    item.canSkip grammar = true := by
  obtain ⟨element, placed, optional⟩ := (Option.any_eq_true _ _).mp omissible
  exact (Option.any_eq_true _ _).mpr ⟨element, placed, by rw [optional, Bool.or_true]⟩

/-- An item is skipped to a later place, if all elements on the way may be left out. -/
theorem skipsTo_of_omits (grammar : Grammar) (item : Item) (fresh : item.matched = false) (count : Nat)
    (omissible : ∀ index, item.index ≤ index → index < item.index + count →
      item.omits grammar index = true) :
    item.SkipsTo grammar { item with index := item.index + count } := by
  induction count with
  | zero => exact .refl
  | succ count ih =>
    have nearly := ih fun index from' before => omissible index from' (Nat.lt_succ_of_lt before)
    refine .tail nearly ⟨canSkip_of_omits ?_, ?_⟩
    · exact omissible (item.index + count) (Nat.le_add_right _ _) (Nat.lt_succ_self _)
    · rw [skipped, Nat.add_assoc, ← fresh]

theorem derivation_nil : item.Derivation grammar ids position [] ↔
    item.origin = position ∧ item.matched = false ∧
      ∀ index, index < item.index → item.omits grammar index = true := by
  constructor
  · intro derivation
    refine ⟨derivation.joined, ?_, fun index before =>
      derivation.omitted index before fun _ none => absurd none List.not_mem_nil⟩
    cases occurred : item.matched with
    | false => rfl
    | true => cases derivation.last.mpr occurred
  · rintro ⟨origin, fresh, omissible⟩
    exact {
      ascends := .nil
      inside := fun _ none => absurd none List.not_mem_nil
      joined := origin
      matched := fun _ none => absurd none List.not_mem_nil
      omitted := fun index before _ => omissible index before
      last := by simp [fresh] }

namespace Derivation

theorem skip (derivation : item.Derivation grammar ids position pieces)
    (skippable : item.canSkip grammar = true) : item.skipped.Derivation grammar ids position pieces where
  ascends := derivation.ascends
  inside piece listed := Nat.le_succ_of_le (derivation.inside piece listed)
  joined := derivation.joined
  matched := derivation.matched
  omitted index before absent := by
    rcases Nat.lt_succ_iff_lt_or_eq.mp before with earlier | here
    · exact derivation.omitted index earlier absent
    · obtain ⟨element, placed, reason⟩ := (Option.any_eq_true _ _).mp skippable
      cases occurred : item.matched with
      | false =>
        rw [occurred, Bool.false_or] at reason
        exact (Option.any_eq_true _ _).mpr ⟨element, here ▸ placed, reason⟩
      | true =>
        obtain ⟨last, ends, same⟩ := Option.map_eq_some_iff.mp (derivation.last.mpr occurred)
        exact absurd (same.trans here.symm) (absent last (List.mem_of_getLast? ends))
  last := by
    refine ⟨fun ends => ?_, fun occurred => by cases occurred⟩
    obtain ⟨last, ends, same⟩ := Option.map_eq_some_iff.mp ends
    have bound := derivation.inside last (List.mem_of_getLast? ends)
    rw [same] at bound
    exact absurd bound (Nat.not_succ_le_self _)

theorem skipsTo (derivation : item.Derivation grammar ids position pieces) {later : Item}
    (skips : item.SkipsTo grammar later) : later.Derivation grammar ids position pieces := by
  induction skips with
  | refl => exact derivation
  | tail _ step ih =>
    rw [step.2]
    exact ih.skip step.1

/-- Once an element has occurred behind which there is none, an item says so. -/
theorem occurred (derivation : item.Derivation grammar ids position pieces) (listed : piece ∈ pieces)
    (here : piece.index = item.index) : item.matched = true := by
  obtain ⟨front, last, rfl⟩ := (List.eq_nil_or_concat' pieces).resolve_left (List.ne_nil_of_mem listed)
  refine derivation.last.mp ?_
  rw [List.getLast?_concat, Option.map_some, Option.some.injEq]
  refine Nat.le_antisymm (derivation.inside last List.mem_concat_self) ?_
  rcases List.mem_append.mp listed with earlier | single
  · have ascends := (List.pairwise_append.mp derivation.ascends).2.2
    exact here ▸ (ascends piece earlier last (List.mem_singleton_self last)).1
  · rw [← here, List.mem_singleton.mp single]

/-- A match of the element that an item expects makes its derivation longer. -/
theorem advance (derivation : item.Derivation grammar ids position pieces)
    (expects : item.next? grammar = some element) (ordered : position ≤ stop)
    (within : stop ≤ ids.length)
    (occurs : span ids position stop ∈ element.symbol.language grammar.language) :
    item.advanced.Derivation grammar ids stop (pieces ++ [⟨item.index, position, stop⟩]) where
  ascends := by
    rw [List.pairwise_append]
    refine ⟨derivation.ascends, List.pairwise_singleton .., fun piece listed later single => ?_⟩
    rw [List.mem_singleton.mp single]
    refine ⟨derivation.inside piece listed, fun here => ?_⟩
    have placed : item.element? grammar = some element := element?_of_next? expects
    have repeatable := repeatable_of_next? expects (derivation.occurred listed here)
    exact (Option.any_eq_true _ _).mpr ⟨element, by rw [here]; exact placed, repeatable⟩
  inside piece listed := by
    rcases List.mem_append.mp listed with earlier | single
    · exact derivation.inside piece earlier
    · rw [List.mem_singleton.mp single]
      exact Nat.le_refl _
  joined := Match.endToEnd_concat.mpr ⟨derivation.joined, rfl⟩
  matched piece listed := by
    rcases List.mem_append.mp listed with earlier | single
    · exact derivation.matched piece earlier
    · have placed : item.element? grammar = some element := element?_of_next? expects
      rw [List.mem_singleton.mp single]
      exact ⟨element, placed, ordered, within, occurs⟩
  omitted index before absent := derivation.omitted index before fun piece listed =>
    absent piece (List.mem_append_left _ listed)
  last := by simp [advanced]

section Last

variable (derivation : item.Derivation grammar ids stop (pieces ++ [last]))

include derivation

theorem index_le_last : ∀ piece ∈ pieces ++ [last], piece.index ≤ last.index := by
  intro piece listed
  rcases List.mem_append.mp listed with earlier | single
  · exact ((List.pairwise_append.mp derivation.ascends).2.2 piece earlier last List.mem_cons_self).1
  · rw [List.mem_singleton.mp single]

/-- Before its last match an item has the derivation without it. -/
theorem before_derivation : (item.beforeLast pieces last).Derivation grammar ids last.start pieces where
  ascends := (List.pairwise_append.mp derivation.ascends).1
  inside piece listed := derivation.index_le_last piece (List.mem_append_left _ listed)
  joined := (Match.endToEnd_concat.mp derivation.joined).1
  matched piece listed := derivation.matched piece (List.mem_append_left _ listed)
  omitted index earlier absent := by
    have below := derivation.inside last List.mem_concat_self
    refine derivation.omitted index (Nat.lt_of_lt_of_le earlier below) fun piece listed => ?_
    rcases List.mem_append.mp listed with among | single
    · exact absent piece among
    · rw [List.mem_singleton.mp single]
      exact Nat.ne_of_gt earlier
  last := beq_iff_eq.symm

/-- Before its last match an item expects the element that is matched. -/
theorem before_expects : ∃ element, (item.beforeLast pieces last).next? grammar = some element ∧
    span ids last.start last.stop ∈ element.symbol.language grammar.language := by
  obtain ⟨element, placed, _, _, occurs⟩ := derivation.matched last List.mem_concat_self
  refine ⟨element, ?_, occurs⟩
  by_cases again : (item.beforeLast pieces last).matched = true
  · obtain ⟨piece, final, same⟩ := Option.map_eq_some_iff.mp (beq_iff_eq.mp again)
    have follows := (List.pairwise_append.mp derivation.ascends).2.2 piece (List.mem_of_getLast? final)
    obtain ⟨other, present, repeatable⟩ :=
      (Option.any_eq_true _ _).mp ((follows last List.mem_cons_self).2 same)
    rw [same, placed] at present
    cases present
    exact Column.next?_of_repeatable placed repeatable
  · exact Column.next?_of_unmatched (by simpa using again) placed

/-- Behind its last match an item has at most been skipped. -/
theorem before_skipsTo : (item.beforeLast pieces last).advanced.SkipsTo grammar item := by
  rcases Nat.lt_or_eq_of_le (derivation.inside last List.mem_concat_self) with earlier | here
  · have fresh : item.matched = false := by
      by_contra occurred
      have ends := derivation.last.mpr (by simpa using occurred)
      rw [List.getLast?_concat, Option.map_some, Option.some.injEq] at ends
      exact Nat.ne_of_lt earlier ends
    obtain ⟨element, placed, _⟩ := derivation.matched last List.mem_concat_self
    have skippable : (item.beforeLast pieces last).advanced.canSkip grammar = true :=
      (Option.any_eq_true _ _).mpr ⟨element, placed, rfl⟩
    obtain ⟨count, place⟩ := Nat.exists_eq_add_of_le (Nat.succ_le_of_lt earlier)
    have onward := skipsTo_of_omits grammar (item.beforeLast pieces last).advanced.skipped rfl count
      fun index from' to' =>
        derivation.omitted index (place ▸ to') fun piece listed same =>
          Nat.not_succ_le_self _ (Nat.le_trans from' (same ▸ derivation.index_le_last piece listed))
    have whole : ({ item with index := last.index + 1 + count, matched := false } : Item) = item := by
      rw [← Nat.succ_eq_add_one, ← place, ← fresh]
    exact .head ⟨skippable, rfl⟩ (whole ▸ onward)
  · have occurred := derivation.occurred List.mem_concat_self here
    have whole : ({ item with index := last.index, matched := true } : Item) = item := by
      rw [here, ← occurred]
    show SkipsTo grammar { item with index := last.index, matched := true } item
    rw [whole]
    exact .refl

end Last

/-- If no tokens are matched at all, no match takes one. -/
theorem empty (derivation : item.Derivation grammar ids item.origin pieces) :
    ∀ piece ∈ pieces, piece.start = item.origin ∧ piece.stop = item.origin := by
  have ordered : ∀ piece ∈ pieces, piece.start ≤ piece.stop := fun piece listed => by
    obtain ⟨_, _, ordered, _⟩ := derivation.matched piece listed
    exact ordered
  intro piece listed
  obtain ⟨from', to'⟩ := (derivation.joined.within ordered).2 piece listed
  have forward := ordered piece listed
  omega

theorem beforeFirst (derivation : item.Derivation grammar ids position pieces) :
    (item.beforeFirst pieces).Derivation grammar ids item.origin [] := by
  cases pieces with
  | nil => exact derivation_nil.mpr ⟨rfl, rfl, (derivation_nil.mp derivation).2.2⟩
  | cons first others =>
    obtain ⟨ascends, _⟩ := List.pairwise_cons.mp derivation.ascends
    refine derivation_nil.mpr ⟨rfl, rfl, fun index (before : index < first.index) => ?_⟩
    have below := derivation.inside first List.mem_cons_self
    refine derivation.omitted index (Nat.lt_of_lt_of_le before below) fun piece listed => ?_
    rcases List.mem_cons.mp listed with rfl | later
    · exact Nat.ne_of_gt before
    · exact Nat.ne_of_gt (Nat.lt_of_lt_of_le before (ascends piece later).1)

/-- A first occurrence repeats nothing. -/
theorem consuming_concat (derivation : item.Derivation grammar ids position pieces)
    (consuming : Match.Consuming pieces) (stop : Nat)
    (again : item.matched = true → position < stop) :
    Match.Consuming (pieces ++ [⟨item.index, position, stop⟩]) := by
  refine Match.consuming_concat.mpr ⟨consuming, fun piece ends here => again ?_⟩
  exact derivation.last.mp (by rw [ends, Option.map_some, here])

end Derivation

theorem beforeFirst_concat (rule : previous.rule = item.rule)
    (alternative : previous.alternative = item.alternative) (origin : previous.origin = item.origin)
    (index : last.index = previous.index) :
    item.beforeFirst (pieces ++ [last]) = previous.beforeFirst pieces := by
  cases pieces <;> simp [beforeFirst, rule, alternative, origin, index]

section Empty

theorem nil_mem_mul {left right : Language TokenId} (empty : [] ∈ left * right) :
    [] ∈ left ∧ [] ∈ right := by
  obtain ⟨front, inLeft, back, inRight, whole⟩ := Language.mem_mul.mp empty
  obtain ⟨rfl, rfl⟩ := List.append_eq_nil_iff.mp whole
  exact ⟨inLeft, inRight⟩

theorem nil_mem_begun {language : Language TokenId} {multiplicity : Multiplicity}
    (empty : [] ∈ multiplicity.begun language) : [] ∈ language := by
  unfold Multiplicity.begun at empty
  split at empty
  · exact (nil_mem_mul empty).1
  · exact empty

/-- Where nothing of an item has been matched, matches without a token are all that a derivation can have. -/
theorem Derivation.matches_nil (untouched : item.Derivation grammar ids position [])
    (derivation : item.Derivation grammar ids position pieces) (listed : piece ∈ pieces) :
    piece.start = item.origin ∧ piece.stop = item.origin ∧ piece.index < item.index ∧
      ∃ element, grammar.element? item.rule item.alternative piece.index = some element ∧
        [] ∈ element.symbol.language grammar.language := by
  obtain ⟨origin, fresh, _⟩ := derivation_nil.mp untouched
  obtain ⟨start, stop⟩ := (origin ▸ derivation).empty piece listed
  obtain ⟨element, placed, _, _, occurs⟩ := derivation.matched piece listed
  rw [start, stop, span_self] at occurs
  refine ⟨start, stop, Nat.lt_of_le_of_ne (derivation.inside piece listed) fun here => ?_,
    element, placed, occurs⟩
  rw [derivation.occurred listed here] at fresh
  cases fresh

/-- An item in front of which each element takes a token has no derivation where it begins but the empty one. -/
theorem frontTakes_iff (within : position ≤ ids.length)
    (untouched : item.Derivation grammar ids position []) : item.FrontTakes grammar ↔
      ∀ pieces, item.Derivation grammar ids position pieces → Match.Consuming pieces → pieces = [] := by
  constructor
  · intro takes pieces derivation _
    by_contra matched
    obtain ⟨piece, listed⟩ := List.exists_mem_of_ne_nil pieces matched
    obtain ⟨_, _, before, element, placed, empty⟩ := untouched.matches_nil derivation listed
    exact takes piece.index element before placed empty
  · intro only index element before placed empty
    obtain ⟨origin, fresh, omissible⟩ := derivation_nil.mp untouched
    have single : item.Derivation grammar ids position [⟨index, position, position⟩] := {
      ascends := List.pairwise_singleton ..
      inside := List.forall_mem_singleton.mpr (Nat.le_of_lt before)
      joined := ⟨origin.symm, rfl⟩
      matched := List.forall_mem_singleton.mpr
        ⟨element, placed, Nat.le_refl _, within, by rwa [span_self]⟩
      omitted := fun other earlier _ => omissible other earlier
      last := by simp [fresh, Nat.ne_of_lt before] }
    cases only _ single (.singleton _)

/-- An item that an element without a token may follow. -/
theorem Derivation.advance_nil (derivation : item.Derivation grammar ids position pieces)
    (consuming : Match.Consuming pieces) (fresh : item.matched = false) (within : position ≤ ids.length)
    (placed : item.element? grammar = some element)
    (empty : [] ∈ element.symbol.language grammar.language) :
    ∃ pieces, item.advanced.Derivation grammar ids position pieces ∧ Match.Consuming pieces := by
  rw [← span_self ids position] at empty
  have expects := Column.next?_of_unmatched fresh placed
  exact ⟨_, derivation.advance expects (Nat.le_refl position) within empty,
    derivation.consuming_concat consuming position fun occurred => by simp [fresh] at occurred⟩

/-- Elements that may match no tokens are passed without one. -/
theorem exists_derivation_of_sequence {rule alternative index origin : Nat} (within : origin ≤ ids.length)
    (inside : index ≤ (grammar.elements rule alternative).length)
    (empty : [] ∈ Element.sequence grammar.language ((grammar.elements rule alternative).take index)) :
    ∃ pieces, (⟨rule, alternative, index, false, origin⟩ : Item).Derivation grammar ids origin pieces ∧
      Match.Consuming pieces := by
  induction index with
  | zero =>
    exact ⟨[], derivation_nil.mpr ⟨rfl, rfl, fun _ none => absurd none (Nat.not_lt_zero _)⟩, .nil⟩
  | succ index ih =>
    let item : Item := ⟨rule, alternative, index, false, origin⟩
    have placed : item.element? grammar = some (grammar.elements rule alternative)[index] :=
      List.getElem?_eq_getElem inside
    have split : (grammar.elements rule alternative).take (index + 1) = _ := take_succ placed
    rw [split, Element.sequence_append] at empty
    obtain ⟨front, last⟩ := nil_mem_mul empty
    rw [Element.sequence_cons, Element.sequence_nil, mul_one] at last
    obtain ⟨pieces, derivation, consuming⟩ := ih (Nat.le_of_succ_le inside) front
    rcases Multiplicity.repeated_le _ _ last with omitted | occurred
    · split at omitted
      · rename_i omissible
        exact ⟨pieces, derivation.skip ((Option.any_eq_true _ _).mpr
          ⟨_, placed, by rw [omissible, Bool.or_true]⟩), consuming⟩
      · exact (Language.notMem_zero _ omitted).elim
    · obtain ⟨pieces, derivation, consuming⟩ :=
        derivation.advance_nil consuming rfl within placed (nil_mem_begun occurred)
      exact ⟨pieces, derivation.skip ((Option.any_eq_true _ _).mpr ⟨_, placed, rfl⟩), consuming⟩

/-- An item that has matched no tokens has a derivation. -/
theorem exists_derivation_of_nil (within : item.origin ≤ ids.length)
    (inside : item.index + item.matched.toNat ≤ (grammar.elements item.rule item.alternative).length)
    (empty : [] ∈ item.consumed grammar grammar.language) :
    ∃ pieces, item.Derivation grammar ids item.origin pieces ∧ Match.Consuming pieces := by
  obtain ⟨rule, alternative, index, occurred, origin⟩ := item
  obtain ⟨front, last⟩ := nil_mem_mul empty
  obtain ⟨pieces, derivation, consuming⟩ :=
    exists_derivation_of_sequence within (Nat.le_of_add_right_le inside) front
  cases occurred with
  | false => exact ⟨pieces, derivation, consuming⟩
  | true =>
    have placed : (⟨rule, alternative, index, false, origin⟩ : Item).element? grammar =
        some (grammar.elements rule alternative)[index] := List.getElem?_eq_getElem inside
    have placed' : (⟨rule, alternative, index, true, origin⟩ : Item).element? grammar = _ := placed
    rw [if_pos rfl, placed', Option.elim_some] at last
    exact derivation.advance_nil consuming rfl within placed (nil_mem_begun last)

end Empty

end Item

end Typeahead
