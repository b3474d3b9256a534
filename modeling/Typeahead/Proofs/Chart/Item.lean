import Mathlib.Logic.Relation
import Typeahead.Chart.Item
import Typeahead.Proofs.Grammar.Language

/-!
What an item says of the tokens between its origin and a position: the elements before its place, and
perhaps the element there, make them up, and its rule may begin where it does.
-/

open Computability

namespace Typeahead

def span (ids : List TokenId) (start stop : Nat) : List TokenId := (ids.take stop).drop start

theorem span_self (ids : List TokenId) (position : Nat) : span ids position position = [] := by
  simp [span]

theorem span_zero (ids : List TokenId) (stop : Nat) : span ids 0 stop = ids.take stop := rfl

theorem length_span (ids : List TokenId) (start : Nat) {stop : Nat} (within : stop ≤ ids.length) :
    (span ids start stop).length = stop - start := by
  simp [span, Nat.min_eq_left within]

theorem eq_of_span_eq_nil {ids : List TokenId} {start stop : Nat} (ordered : start ≤ stop)
    (within : stop ≤ ids.length) (empty : span ids start stop = []) : start = stop := by
  have length := length_span ids start within
  rw [empty, List.length_nil] at length
  omega

theorem span_append (ids : List TokenId) {start middle stop : Nat} (first : start ≤ middle)
    (second : middle ≤ stop) (within : stop ≤ ids.length) :
    span ids start middle ++ span ids middle stop = span ids start stop := by
  have front : ids.take middle = (ids.take stop).take middle := by
    rw [List.take_take, Nat.min_eq_left second]
  have joined : (ids.take stop).take middle ++ (ids.take stop).drop middle = ids.take stop :=
    List.take_append_drop middle _
  have inside : start ≤ ((ids.take stop).take middle).length := by
    rw [List.length_take, List.length_take]
    omega
  unfold span
  rw [front, ← List.drop_append_of_le_length inside, joined]

theorem span_succ (ids : List TokenId) {position : Nat} {id : TokenId}
    (present : ids[position]? = some id) : span ids position (position + 1) = [id] := by
  obtain ⟨inside, same⟩ := List.getElem?_eq_some_iff.mp present
  rw [span, List.take_succ_eq_append_getElem inside,
    List.drop_append_of_le_length (by simp; omega)]
  simp [same]

/-- A cut of the words between two positions is a position. -/
theorem span_split (ids : List TokenId) {start stop : Nat} {front back : List TokenId}
    (ordered : start ≤ stop) (within : stop ≤ ids.length) (cut : front ++ back = span ids start stop) :
    ∃ middle, start ≤ middle ∧ middle ≤ stop ∧ front = span ids start middle ∧
      back = span ids middle stop := by
  have lengths := congrArg List.length cut
  rw [List.length_append, length_span ids start within] at lengths
  have first : start ≤ start + front.length := by omega
  have second : start + front.length ≤ stop := by omega
  have joined := span_append ids first second within
  rw [← cut] at joined
  have parts := List.append_inj joined (by
    rw [length_span ids start (by omega)]
    omega)
  exact ⟨start + front.length, first, second, parts.1.symm, parts.2.symm⟩

namespace Item

def canSkip (grammar : Grammar) (item : Item) : Bool :=
  (item.element? grammar).any fun element => item.matched || element.multiplicity.isOptional

def SkipsTo (grammar : Grammar) : Item → Item → Prop :=
  Relation.ReflTransGen fun item later => item.canSkip grammar = true ∧ later = item.skipped

theorem SkipsTo.index_le {grammar : Grammar} {item later : Item} (skips : item.SkipsTo grammar later) :
    item.index ≤ later.index := by
  induction skips with
  | refl => exact Nat.le_refl _
  | tail _ last ih =>
    rw [last.2]
    exact Nat.le_succ_of_le ih

theorem SkipsTo.eq_of_index {grammar : Grammar} {item later : Item}
    (skips : item.SkipsTo grammar later) (same : later.index ≤ item.index) : later = item := by
  cases skips with
  | refl => rfl
  | tail front last =>
    have below := index_le front
    rw [last.2] at same
    simp only [skipped] at same
    omega

theorem SkipsTo.same_alternative {grammar : Grammar} {item later : Item}
    (skips : item.SkipsTo grammar later) : item.rule = later.rule ∧
      item.alternative = later.alternative ∧ item.origin = later.origin := by
  induction skips with
  | refl => exact ⟨rfl, rfl, rfl⟩
  | tail _ last ih =>
    rw [last.2]
    exact ih

/-- The words of the elements that an item has behind it, the one at its place included if that has
occurred. -/
def consumed (grammar : Grammar) (known : Nat → Language TokenId) (item : Item) : Language TokenId :=
  Element.sequence known ((grammar.elements item.rule item.alternative).take item.index) *
    if item.matched then
      (item.element? grammar).elim 0 fun element =>
        element.multiplicity.begun (element.symbol.language known)
    else 1

end Item

/-- The words that may stand in front of an element in its alternative. -/
def Grammar.before (grammar : Grammar) (rule alternative index : Nat) : Language TokenId :=
  Element.sequence grammar.language ((grammar.elements rule alternative).take index) *
    (grammar.element? rule alternative index).elim 0 fun element =>
      element.multiplicity.ahead (element.symbol.language grammar.language)

/-- A rule may begin at a position: it is the start rule at the front, or a rule that may begin
earlier refers to it behind what is matched between the two positions. -/
inductive Grammar.Begins (grammar : Grammar) (start : Nat) (ids : List TokenId) :
    (rule position : Nat) → Prop where
  | start : grammar.Begins start ids start 0
  | reference {rule alternative index origin position target : Nat} {element : Element}
      (outer : grammar.Begins start ids rule origin)
      (placed : grammar.element? rule alternative index = some element)
      (refers : element.symbol.target? = some target)
      (ordered : origin ≤ position) (within : position ≤ ids.length)
      (matched : span ids origin position ∈ grammar.before rule alternative index) :
      grammar.Begins start ids target position

namespace Item

variable {grammar : Grammar} {known : Nat → Language TokenId} {item : Item} {element : Element}
  {word piece : List TokenId}

theorem element?_of_next? (expects : item.next? grammar = some element) :
    item.element? grammar = some element := by
  rw [next?, Option.filter_eq_some_iff] at expects
  exact expects.1

theorem repeatable_of_next? (expects : item.next? grammar = some element)
    (matched : item.matched = true) : element.multiplicity.isRepeatable = true := by
  rw [next?, Option.filter_eq_some_iff] at expects
  simpa [matched] using expects.2

theorem awaited?_of_target (expects : item.next? grammar = some element) {target : Nat}
    (refers : element.symbol.target? = some target) : item.awaited? grammar = some target := by
  rw [awaited?, expects, Option.bind_some, refers]

theorem index_lt_of_element? (placed : item.element? grammar = some element) :
    item.index < (grammar.elements item.rule item.alternative).length :=
  (List.getElem?_eq_some_iff.mp placed).1

theorem take_succ (placed : item.element? grammar = some element) :
    (grammar.elements item.rule item.alternative).take (item.index + 1) =
      (grammar.elements item.rule item.alternative).take item.index ++ [element] := by
  obtain ⟨inside, same⟩ := List.getElem?_eq_some_iff.mp placed
  rw [List.take_succ_eq_append_getElem inside, same]

theorem consumed_start (rule alternative origin : Nat) :
    [] ∈ (start rule alternative origin).consumed grammar known := by
  simp [consumed, start]

theorem consumed_skipped (skippable : item.canSkip grammar = true)
    (matched : word ∈ item.consumed grammar known) :
    word ∈ item.skipped.consumed grammar known := by
  obtain ⟨element, placed, reason⟩ := (Option.any_eq_true _ _).mp skippable
  have behind : item.skipped.consumed grammar known =
      Element.sequence known ((grammar.elements item.rule item.alternative).take item.index) *
        element.language known := by
    simp [consumed, skipped, take_succ placed, Element.sequence_append]
  rw [behind]
  refine (mul_le_mul' le_rfl ?_ : item.consumed grammar known ≤ _) matched
  rw [Element.language]
  cases occurred : item.matched with
  | true =>
    simp only [↓reduceIte, placed, Option.elim_some]
    exact Multiplicity.begun_le_repeated _ _
  | false =>
    simp only [Bool.false_eq_true, ↓reduceIte]
    exact Multiplicity.one_le_repeated _ _ (by simpa [occurred] using reason)

theorem consumed_before (expects : item.next? grammar = some element)
    (matched : word ∈ item.consumed grammar grammar.language) :
    word ∈ grammar.before item.rule item.alternative item.index := by
  have placed := element?_of_next? expects
  refine (mul_le_mul' le_rfl ?_ : item.consumed grammar grammar.language ≤ _) matched
  have placed' : grammar.element? item.rule item.alternative item.index = some element := placed
  rw [placed, placed', Option.elim_some, Option.elim_some]
  cases occurred : item.matched with
  | true =>
    simp only [↓reduceIte]
    exact Multiplicity.begun_le_ahead _ _ (repeatable_of_next? expects occurred)
  | false =>
    simp only [Bool.false_eq_true, ↓reduceIte, Multiplicity.ahead]
    split
    · exact one_le_kstar
    · exact le_rfl

theorem consumed_advanced (expects : item.next? grammar = some element)
    (matched : word ∈ item.consumed grammar known)
    (occurs : piece ∈ element.symbol.language known) :
    word ++ piece ∈ item.advanced.consumed grammar known := by
  have placed := element?_of_next? expects
  have placed' : item.advanced.element? grammar = some element := placed
  obtain ⟨front, inFront, back, inBack, rfl⟩ := Language.mem_mul.mp matched
  rw [List.append_assoc]
  refine Language.append_mem_mul inFront ?_
  rw [if_pos (show item.advanced.matched = true from rfl), placed', Option.elim_some]
  refine Multiplicity.ahead_mul_le_begun _ _ (Language.append_mem_mul ?_ occurs)
  cases occurred : item.matched with
  | true =>
    simp only [occurred, ↓reduceIte, placed, Option.elim_some] at inBack
    exact Multiplicity.begun_le_ahead _ _ (repeatable_of_next? expects occurred) inBack
  | false =>
    simp only [occurred, Bool.false_eq_true, ↓reduceIte, Language.mem_one] at inBack
    subst inBack
    unfold Multiplicity.ahead
    split
    · exact Language.nil_mem_kstar _
    · exact Language.nil_mem_one

theorem element?_of_complete (complete : item.isComplete grammar = true) :
    item.element? grammar = none := by
  rw [element?, Grammar.element?, List.getElem?_eq_none_iff]
  exact (beq_iff_eq.mp complete).ge

theorem awaited?_of_complete (complete : item.isComplete grammar = true) :
    item.awaited? grammar = none := by
  rw [awaited?, next?, element?_of_complete complete, Option.filter_none, Option.bind_none]

theorem canSkip_of_complete (complete : item.isComplete grammar = true) :
    item.canSkip grammar = false := by
  rw [canSkip, element?_of_complete complete, Option.any_none]

theorem derives_of_complete (complete : item.isComplete grammar = true)
    (declared : item.alternative < (grammar.alternatives item.rule).length)
    (matched : word ∈ item.consumed grammar grammar.language) : grammar.Derives item.rule word := by
  have ended : item.index = (grammar.elements item.rule item.alternative).length := by
    simpa [isComplete] using complete
  have none := element?_of_complete complete
  obtain ⟨front, inFront, back, inBack, rfl⟩ := Language.mem_mul.mp matched
  cases occurred : item.matched with
  | true =>
    simp only [occurred, ↓reduceIte, none, Option.elim_none] at inBack
    exact (Language.notMem_zero _ inBack).elim
  | false =>
    simp only [occurred, Bool.false_eq_true, ↓reduceIte, Language.mem_one] at inBack
    subst inBack
    rw [List.append_nil]
    rw [ended, List.take_length] at inFront
    refine .of_elements (List.getElem_mem declared) ?_
    simpa [Grammar.elements, declared] using inFront

/-- What the items of a chart have in common: they are places of alternatives, may begin where they do,
and have matched the tokens from there on. -/
structure Valid (grammar : Grammar) (start : Nat) (ids : List TokenId) (position : Nat)
    (item : Item) : Prop where
  declared : item.alternative < (grammar.alternatives item.rule).length
  inside : item.index + item.matched.toNat ≤
    (grammar.elements item.rule item.alternative).length
  begins : grammar.Begins start ids item.rule item.origin
  ordered : item.origin ≤ position
  within : position ≤ ids.length
  matched : span ids item.origin position ∈ item.consumed grammar grammar.language

namespace Valid

variable {start position : Nat} {ids : List TokenId}

theorem of_begins {rule alternative : Nat} (begins : grammar.Begins start ids rule position)
    (declared : alternative < (grammar.alternatives rule).length) (within : position ≤ ids.length) :
    (Item.start rule alternative position).Valid grammar start ids position where
  declared := declared
  inside := Nat.zero_le _
  begins := begins
  ordered := Nat.le_refl _
  within := within
  matched := by
    rw [Item.start, span_self]
    exact consumed_start rule alternative position

theorem skipped (valid : item.Valid grammar start ids position)
    (skippable : item.canSkip grammar = true) : item.skipped.Valid grammar start ids position where
  declared := valid.declared
  inside := by
    obtain ⟨element, placed, _⟩ := (Option.any_eq_true _ _).mp skippable
    exact index_lt_of_element? placed
  begins := valid.begins
  ordered := valid.ordered
  within := valid.within
  matched := consumed_skipped skippable valid.matched

theorem awaited (valid : item.Valid grammar start ids position) {target : Nat}
    (awaits : item.awaited? grammar = some target) : grammar.Begins start ids target position := by
  obtain ⟨element, expects, refers⟩ := Option.bind_eq_some_iff.mp awaits
  exact .reference valid.begins (element?_of_next? expects) refers valid.ordered valid.within
    (consumed_before expects valid.matched)

theorem advanced {stop : Nat} (valid : item.Valid grammar start ids position)
    (expects : item.next? grammar = some element) (ordered : position ≤ stop)
    (within : stop ≤ ids.length)
    (occurs : span ids position stop ∈ element.symbol.language grammar.language) :
    item.advanced.Valid grammar start ids stop where
  declared := valid.declared
  inside := by
    have below := index_lt_of_element? (element?_of_next? expects)
    exact below
  begins := valid.begins
  ordered := Nat.le_trans valid.ordered ordered
  within := within
  matched := by
    rw [Item.advanced, ← span_append ids valid.ordered ordered within]
    exact consumed_advanced expects valid.matched occurs

theorem advanced_token {id : TokenId} (valid : item.Valid grammar start ids position)
    (expects : item.next? grammar = some element) (terminal : element.symbol.isTerminal = true)
    (present : ids[position]? = some id) (accepted : element.symbol.accepts id = true) :
    item.advanced.Valid grammar start ids (position + 1) := by
  refine valid.advanced expects (Nat.le_succ _) (List.getElem?_eq_some_iff.mp present).1 ?_
  rw [span_succ ids present]
  exact (Symbol.mem_language_of_terminal terminal _ _).mpr ⟨id, accepted, rfl⟩

theorem advanced_rule {stop target : Nat} {done : Item}
    (valid : item.Valid grammar start ids done.origin)
    (awaits : item.awaited? grammar = some target) (validDone : done.Valid grammar start ids stop)
    (complete : done.isComplete grammar = true) (same : done.rule = target) :
    item.advanced.Valid grammar start ids stop := by
  obtain ⟨element, expects, refers⟩ := Option.bind_eq_some_iff.mp awaits
  refine valid.advanced expects validDone.ordered validDone.within ?_
  rw [Symbol.language_of_target refers, ← same]
  exact derives_of_complete complete validDone.declared validDone.matched

end Valid

end Item

end Typeahead
