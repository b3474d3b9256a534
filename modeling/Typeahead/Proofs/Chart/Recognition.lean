import Typeahead.Proofs.Chart.Stages

/-!
A chart recognises exactly what a rule derives, and expects exactly the terminals that may come next.
-/

open Computability

namespace Typeahead

namespace Column

variable {grammar : Grammar} {columns : Array (Column grammar)} {ids : List TokenId}
  {start position stop : Nat} {known : Nat → Language TokenId} {item : Item} {element : Element}

def Begun (columns : Array (Column grammar)) (rule position : Nat) : Prop :=
  ∀ alternative, alternative < (grammar.alternatives rule).length →
    ContainsAt columns position (.start rule alternative position) []

def Ended (columns : Array (Column grammar)) (rule position stop : Nat) : Prop :=
  ∃ done, ContainsAt columns stop done [] ∧ done.isComplete grammar = true ∧ done.rule = rule ∧
    done.origin = position

/-- Where a rule is begun, its complete items follow at the ends of all words known of it. -/
def Runs (ids : List TokenId) (columns : Array (Column grammar)) (known : Nat → Language TokenId) :
    Prop :=
  ∀ target position stop, position ≤ stop → stop ≤ ids.length → span ids position stop ∈ known target →
    Begun columns target position → Ended columns target position stop

structure Reads (start : Nat) (ids : List TokenId) (columns : Array (Column grammar)) : Prop where
  charted : Charted start ids columns
  size : columns.size = ids.length + 1

/-- Every match of the element that an item expects has a child in the chart. -/
theorem Reads.exists_child (reads : Reads start ids columns) (runs : Runs ids columns known) {id : NodeId}
    (found : itemAt? columns id = some item) (expects : item.next? grammar = some element)
    (ordered : id.position ≤ stop) (within : stop ≤ ids.length)
    (matched : span ids id.position stop ∈ element.symbol.language known) :
    ∃ child, MatchesChild ids columns element.symbol id.position stop child := by
  cases refers : element.symbol.target? with
  | none =>
    have terminal : element.symbol.isTerminal = true := by rw [Symbol.isTerminal, refers]; rfl
    obtain ⟨token, accepted, single⟩ := (Symbol.mem_language_of_terminal terminal known _).mp matched
    have next : stop = id.position + 1 := by
      have length := length_span ids id.position within
      rw [single, List.length_singleton] at length
      omega
    subst next
    have present := List.getElem?_eq_getElem (Nat.lt_of_succ_le within)
    rw [span_succ ids present, List.cons.injEq] at single
    exact ⟨.token id.position, rfl, rfl, terminal, token, by rw [present, single.1], accepted⟩
  | some target =>
    have awaits := Item.awaited?_of_target expects refers
    rw [Symbol.language_of_target refers] at matched
    obtain ⟨done, contained, complete, rfl, origin⟩ :=
      runs target id.position stop ordered within matched fun alternative declared =>
        reads.charted.predicted found awaits declared
    obtain ⟨slot, foundDone⟩ := itemAt?_of_containsAt contained
    exact ⟨.rule ⟨stop, slot⟩, rfl, done, foundDone, complete, refers, origin⟩

theorem Reads.occurs_once (reads : Reads start ids columns) (runs : Runs ids columns known)
    (contained : ContainsAt columns position item []) (expects : item.next? grammar = some element)
    (ordered : position ≤ stop) (within : stop ≤ ids.length)
    (matched : span ids position stop ∈ element.symbol.language known) :
    ContainsAt columns stop item.advanced [] := by
  obtain ⟨slot, found⟩ := itemAt?_of_containsAt contained
  obtain ⟨child, given⟩ := reads.exists_child runs found expects ordered within matched
  cases child with
  | token =>
    obtain ⟨_, rfl, _, id, present, accepted⟩ := given
    exact (reads.charted.scanned found expects present accepted
      (by rw [reads.size]; exact Nat.succ_lt_succ within)).weaken (List.nil_subset _)
  | rule completed =>
    obtain ⟨rfl, done, foundDone, complete, refers, origin⟩ := given
    have awaits := Item.awaited?_of_target expects refers
    exact (reads.charted.completed foundDone complete found origin awaits).1

theorem Reads.occurs_again (reads : Reads start ids columns) (runs : Runs ids columns known)
    (contained : ContainsAt columns position item []) (expects : item.next? grammar = some element)
    (occurred : item.matched = true) (ordered : position ≤ stop) (within : stop ≤ ids.length)
    (matched : span ids position stop ∈ (element.symbol.language known)∗) :
    ContainsAt columns stop item [] := by
  obtain ⟨pieces, whole, each⟩ := Language.mem_kstar.mp matched
  clear matched
  induction pieces generalizing position with
  | nil =>
    have same := eq_of_span_eq_nil ordered within whole
    exact same ▸ contained
  | cons piece pieces ih =>
    rw [List.flatten_cons] at whole
    obtain ⟨middle, first, second, front, back⟩ := span_split ids ordered within whole.symm
    have once := reads.occurs_once runs contained expects first (Nat.le_trans second within)
      (front ▸ each piece List.mem_cons_self)
    have same : item.advanced = item := by
      cases item
      cases occurred
      rfl
    rw [same] at once
    exact ih once second back.symm fun other member => each other (List.mem_cons_of_mem _ member)

theorem next?_of_unmatched (fresh : item.matched = false)
    (placed : item.element? grammar = some element) :
    item.next? grammar = some element := by
  simp [Item.next?, placed, fresh]

theorem next?_of_repeatable (placed : item.element? grammar = some element)
    (repeatable : element.multiplicity.isRepeatable = true) : item.next? grammar = some element := by
  simp [Item.next?, placed, repeatable]

theorem Reads.occurs (reads : Reads start ids columns) (runs : Runs ids columns known)
    (contained : ContainsAt columns position item []) (fresh : item.matched = false)
    (placed : item.element? grammar = some element) (ordered : position ≤ stop)
    (within : stop ≤ ids.length)
    (matched : span ids position stop ∈ element.multiplicity.begun (element.symbol.language known)) :
    ContainsAt columns stop item.advanced [] := by
  have expects := next?_of_unmatched fresh placed
  unfold Multiplicity.begun at matched
  split at matched
  · rename_i repeatable
    obtain ⟨first, inFirst, others, inOthers, whole⟩ := Language.mem_mul.mp matched
    obtain ⟨middle, before, behind, rfl, rfl⟩ := span_split ids ordered within whole
    have once := reads.occurs_once runs contained expects before (Nat.le_trans behind within) inFirst
    have again : item.advanced.next? grammar = some element := next?_of_repeatable placed repeatable
    exact reads.occurs_again runs once again rfl behind within inOthers
  · exact reads.occurs_once runs contained expects ordered within matched

/-- An item moves past an element as often as that may occur. -/
theorem Reads.passes (reads : Reads start ids columns) (runs : Runs ids columns known)
    (contained : ContainsAt columns position item []) (fresh : item.matched = false)
    (placed : item.element? grammar = some element) (ordered : position ≤ stop)
    (within : stop ≤ ids.length) (matched : span ids position stop ∈ element.language known) :
    ContainsAt columns stop item.skipped [] := by
  rcases Multiplicity.repeated_le _ _ matched with omitted | occurred
  · split at omitted
    · rename_i omissible
      rw [← eq_of_span_eq_nil ordered within ((Language.mem_one _).mp omitted)]
      refine reads.charted.skipped contained ?_
      rw [Item.canSkip, placed, Option.any_some, omissible, Bool.or_true]
    · exact (Language.notMem_zero _ omitted).elim
  · have once := reads.occurs runs contained fresh placed ordered within occurred
    have here : item.advanced.element? grammar = some element := placed
    have skippable : item.advanced.canSkip grammar = true := by
      rw [Item.canSkip, here]
      rfl
    have moved := reads.charted.skipped once skippable
    exact moved

theorem Reads.passes_all (reads : Reads start ids columns) (runs : Runs ids columns known)
    (front back : List Element) (contained : ContainsAt columns position item [])
    (fresh : item.matched = false)
    (ahead : (grammar.elements item.rule item.alternative).drop item.index = front ++ back)
    (ordered : position ≤ stop) (within : stop ≤ ids.length)
    (matched : span ids position stop ∈ Element.sequence known front) :
    ContainsAt columns stop { item with index := item.index + front.length } [] := by
  induction front generalizing item position with
  | nil =>
    have same := eq_of_span_eq_nil ordered within ((Language.mem_one _).mp matched)
    exact same ▸ contained
  | cons element front ih =>
    rw [Element.sequence_cons] at matched
    obtain ⟨first, inFirst, others, inOthers, whole⟩ := Language.mem_mul.mp matched
    obtain ⟨middle, before, behind, rfl, rfl⟩ := span_split ids ordered within whole
    have placed : item.element? grammar = some element := by
      rw [Item.element?, Grammar.element?, ← List.head?_drop, ahead]
      rfl
    have passed := reads.passes runs contained fresh placed before (Nat.le_trans behind within) inFirst
    have rest : (grammar.elements item.skipped.rule item.skipped.alternative).drop
        item.skipped.index = front ++ back := by
      show (grammar.elements item.rule item.alternative).drop (item.index + 1) = front ++ back
      rw [← List.tail_drop, ahead, List.cons_append, List.tail_cons]
    have final := ih passed rfl rest behind inOthers
    rw [List.length_cons, ← Nat.add_assoc, Nat.add_right_comm]
    simpa only [Item.skipped, fresh] using final

theorem Reads.runs_derived (reads : Reads start ids columns) {rule : Nat} {word : List TokenId}
    (derives : grammar.Derives rule word) (ordered : position ≤ stop) (within : stop ≤ ids.length)
    (whole : span ids position stop = word)
    (begun : Begun columns rule position) : Ended columns rule position stop := by
  induction derives generalizing position stop with
  | @of_alternative rule word alternative known derived declared matched ih =>
    have runs : Runs ids columns known := fun target from' to' ordered within known begun =>
      ih target _ known ordered within rfl begun
    obtain ⟨place, placed⟩ := List.mem_iff_getElem?.mp declared
    have elements : grammar.elements rule place = alternative.elements := by
      rw [Grammar.elements, placed, Option.map_some, Option.getD_some]
    have contained := begun place (List.getElem?_eq_some_iff.mp placed).1
    have ended := reads.passes_all runs alternative.elements [] contained rfl
      (by simp [Item.start, elements]) ordered within (whole ▸ matched)
    refine ⟨_, ended, ?_, rfl, rfl⟩
    simp [Item.isComplete, Item.start, elements]

theorem Reads.runs_language (reads : Reads start ids columns) : Runs ids columns grammar.language :=
  fun _ _ _ ordered within derives begun => reads.runs_derived derives ordered within rfl begun

/-- Where a rule is begun, its items stand behind all words that may stand in front of an element. -/
theorem Reads.reaches (reads : Reads start ids columns) {rule alternative index : Nat}
    (begun : Begun columns rule position)
    (placed : grammar.element? rule alternative index = some element)
    (ordered : position ≤ stop) (within : stop ≤ ids.length)
    (matched : span ids position stop ∈ grammar.before rule alternative index) :
    ∃ occurred, ContainsAt columns stop ⟨rule, alternative, index, occurred, position⟩ [] ∧
      (⟨rule, alternative, index, occurred, position⟩ : Item).next? grammar = some element := by
  have runs := reads.runs_language
  have inside := (List.getElem?_eq_some_iff.mp placed).1
  have declared : alternative < (grammar.alternatives rule).length := by
    by_contra beyond
    rw [Grammar.elements, List.getElem?_eq_none (by omega), Option.map_none] at inside
    exact Nat.not_lt_zero _ inside
  rw [Grammar.before, placed, Option.elim_some] at matched
  obtain ⟨front, inFront, last, inLast, whole⟩ := Language.mem_mul.mp matched
  obtain ⟨middle, before, behind, rfl, rfl⟩ := span_split ids ordered within whole
  have upTo := reads.passes_all runs _ ((grammar.elements rule alternative).drop index)
    (begun alternative declared) rfl (by simp [Item.start]) before (Nat.le_trans behind within) inFront
  rw [List.length_take, Nat.min_eq_left (Nat.le_of_lt inside)] at upTo
  simp only [Item.start, Nat.zero_add] at upTo
  have expectsFirst :
      (⟨rule, alternative, index, false, position⟩ : Item).next? grammar = some element :=
    next?_of_unmatched rfl placed
  unfold Multiplicity.ahead at inLast
  split at inLast
  · rename_i repeatable
    rw [← Language.one_add_self_mul_kstar_eq_kstar] at inLast
    rcases inLast with none | some
    · rw [← eq_of_span_eq_nil behind within ((Language.mem_one _).mp none)]
      exact ⟨false, upTo, expectsFirst⟩
    · have occurred := reads.occurs runs upTo rfl placed behind within
        (by rw [Multiplicity.begun, if_pos repeatable]; exact some)
      exact ⟨true, occurred, next?_of_repeatable placed repeatable⟩
  · rw [← eq_of_span_eq_nil behind within ((Language.mem_one _).mp inLast)]
    exact ⟨false, upTo, expectsFirst⟩

theorem Reads.begins (reads : Reads start ids columns) {rule : Nat}
    (begins : grammar.Begins start ids rule position) : Begun columns rule position := by
  induction begins with
  | start =>
    intro alternative declared
    have inside : 0 < columns.size := by
      rw [reads.size]
      exact Nat.succ_pos _
    exact reads.charted.begun (Array.getElem?_eq_getElem inside) declared
  | reference outer placed refers ordered within matched ih =>
    intro alternative declared
    obtain ⟨occurred, contained, expects⟩ := reads.reaches ih placed ordered within matched
    obtain ⟨slot, found⟩ := itemAt?_of_containsAt contained
    exact reads.charted.predicted found (Item.awaited?_of_target expects refers) declared

end Column

/-- An element may come next at a position: its rule may begin somewhere, and from there on the tokens
match what may stand in front of the element. -/
def Grammar.LeftContext (grammar : Grammar) (start : Nat) (ids : List TokenId)
    (rule alternative index position : Nat) : Prop :=
  ∃ origin, grammar.Begins start ids rule origin ∧ origin ≤ position ∧ position ≤ ids.length ∧
    span ids origin position ∈ grammar.before rule alternative index

namespace Chart

open Column

variable (grammar : Grammar) (start : Nat) (tokens : List Token)

theorem parse_reads : Reads start (tokens.map Token.id) (parse grammar start tokens).columns := by
  obtain ⟨charted, size⟩ := parse_charted grammar start tokens
  exact ⟨charted, by rw [size, List.length_map]⟩

theorem complete_iff_derives (position : Nat) :
    (∃ slot item, itemAt? (parse grammar start tokens).columns ⟨position, slot⟩ = some item ∧
      item.rule = start ∧ item.origin = 0 ∧ item.isComplete grammar = true) ↔
      position ≤ tokens.length ∧ grammar.Derives start ((tokens.map Token.id).take position) := by
  have reads := parse_reads grammar start tokens
  constructor
  · intro given
    obtain ⟨slot, item, found, rule, origin, complete⟩ := given
    have valid := reads.charted.valid found
    have within := valid.within
    have matched := valid.matched
    rw [List.length_map] at within
    rw [origin, span_zero] at matched
    exact ⟨within, rule ▸ Item.derives_of_complete complete valid.declared matched⟩
  · intro given
    obtain ⟨within, derives⟩ := given
    obtain ⟨done, contained, complete, rule, origin⟩ := reads.runs_derived derives
      (Nat.zero_le position) (by simpa using within) (span_zero _ _) (reads.begins .start)
    obtain ⟨slot, found⟩ := itemAt?_of_containsAt contained
    exact ⟨slot, done, found, rule, origin, complete⟩

theorem endsAt_iff (position : Nat) : (parse grammar start tokens).endsAt position = true ↔
    position ≤ tokens.length ∧ grammar.Derives start ((tokens.map Token.id).take position) := by
  rw [← complete_iff_derives]
  simp only [endsAt, Array.any_eq_true', Bool.and_eq_true, isRoot, beq_iff_eq, itemAt?_columns, node?,
    Option.map_eq_some_iff]
  constructor
  · intro given
    obtain ⟨node, member, ⟨rule, origin⟩, complete⟩ := given
    obtain ⟨slot, placed⟩ := Array.mem_iff_getElem?.mp member
    exact ⟨slot, node.item, ⟨node, placed, rfl⟩, rule, origin, complete⟩
  · intro given
    obtain ⟨slot, _, ⟨node, placed, rfl⟩, rule, origin, complete⟩ := given
    exact ⟨node, Array.mem_iff_getElem?.mpr ⟨slot, placed⟩, ⟨rule, origin⟩, complete⟩

theorem getLast?_filter_range (holds : Nat → Bool) (count last : Nat) :
    ((List.range count).filter holds).getLast? = some last ↔
      IsGreatest {n | n < count ∧ holds n = true} last := by
  induction count with
  | zero => simp [IsGreatest]
  | succ count ih =>
    rw [List.range_succ, List.filter_append]
    by_cases here : holds count = true
    · have kept : [count].filter holds = [count] := by simp [here]
      rw [kept, List.getLast?_concat, Option.some.injEq]
      constructor
      · intro same
        subst same
        exact ⟨⟨Nat.lt_succ_self _, here⟩, fun n member => Nat.le_of_lt_succ member.1⟩
      · intro greatest
        exact Nat.le_antisymm (greatest.2 ⟨Nat.lt_succ_self _, here⟩)
          (Nat.le_of_lt_succ greatest.1.1)
    · have dropped : [count].filter holds = [] := by simp [here]
      rw [dropped, List.append_nil, ih]
      have same : {n | n < count + 1 ∧ holds n = true} = {n | n < count ∧ holds n = true} := by
        ext n
        constructor
        · intro given
          obtain ⟨below, holdsN⟩ := given
          rcases Nat.lt_succ_iff_lt_or_eq.mp below with before | rfl
          · exact ⟨before, holdsN⟩
          · exact (here holdsN).elim
        · intro given
          obtain ⟨below, holdsN⟩ := given
          exact ⟨Nat.lt_succ_of_lt below, holdsN⟩
      rw [same]

theorem endOfMatch?_eq_some_iff (position : Nat) :
    (parse grammar start tokens).endOfMatch? = some position ↔
      IsGreatest {stop | stop ≤ tokens.length ∧
        grammar.Derives start ((tokens.map Token.id).take stop)} position := by
  rw [endOfMatch?, getLast?_filter_range, positions, (parse_charted grammar start tokens).2]
  simp only [endsAt_iff, Nat.lt_succ_iff]
  have same : ∀ stop, (stop ≤ tokens.length ∧ stop ≤ tokens.length ∧
      grammar.Derives start ((tokens.map Token.id).take stop)) ↔
      (stop ≤ tokens.length ∧ grammar.Derives start ((tokens.map Token.id).take stop)) :=
    fun stop => ⟨And.right, fun both => ⟨both.1, both⟩⟩
  simp only [same]

theorem accepts_iff : (parse grammar start tokens).accepts = true ↔
    grammar.Derives start (tokens.map Token.id) := by
  rw [accepts, beq_iff_eq, endOfMatch?_eq_some_iff]
  have all : (tokens.map Token.id).take tokens.length = tokens.map Token.id :=
    List.take_of_length_le (by simp)
  constructor
  · intro greatest
    have derives := greatest.1.2
    rwa [parse, all] at derives
  · intro derives
    exact ⟨⟨Nat.le_refl _, by rwa [parse, all]⟩, fun stop member => member.1⟩

/-- A chart recognises the language of its start rule: the rule is complete at exactly those positions
up to which it derives the tokens, the last of them is the end of the match, and all tokens are accepted
if it derives them. -/
theorem parse_recognises :
    (∀ position, (∃ slot item, itemAt? (parse grammar start tokens).columns ⟨position, slot⟩ = some item ∧
        item.rule = start ∧ item.origin = 0 ∧ item.isComplete grammar = true) ↔
      position ≤ tokens.length ∧ grammar.Derives start ((tokens.map Token.id).take position)) ∧
    (∀ position, (parse grammar start tokens).endOfMatch? = some position ↔
      IsGreatest {stop | stop ≤ tokens.length ∧
        grammar.Derives start ((tokens.map Token.id).take stop)} position) ∧
    ((parse grammar start tokens).endOfMatch? = none ↔
      ∀ stop, stop ≤ tokens.length → ¬ grammar.Derives start ((tokens.map Token.id).take stop)) ∧
    ((parse grammar start tokens).accepts = true ↔ grammar.Derives start (tokens.map Token.id)) := by
  refine ⟨complete_iff_derives grammar start tokens, endOfMatch?_eq_some_iff grammar start tokens, ?_,
    accepts_iff grammar start tokens⟩
  rw [endOfMatch?, List.getLast?_eq_none_iff, List.filter_eq_nil_iff, positions,
    (parse_charted grammar start tokens).2]
  simp only [List.mem_range, Nat.lt_succ_iff, endsAt_iff, not_and]
  exact ⟨fun never stop within => never stop within within, fun never stop within _ => never stop within⟩

theorem mem_expectingTerminal (chart : Chart) (position : Nat) (id : NodeId) :
    id ∈ chart.expectingTerminal position ↔ id.position = position ∧
      ∃ item, itemAt? chart.columns id = some item ∧ item.expectsTerminal chart.grammar = true := by
  simp only [expectingTerminal, List.mem_map, List.mem_filter, Prod.exists, mem_inOrder, itemAt?_columns,
    node?]
  constructor
  · intro given
    obtain ⟨item, slot, ⟨found, expects⟩, rfl⟩ := given
    exact ⟨rfl, item, found, expects⟩
  · intro given
    obtain ⟨rfl, item, found, expects⟩ := given
    exact ⟨item, id.slot, ⟨found, expects⟩, rfl⟩

/-- The terminals that a chart expects at a position are those that may come next there. -/
theorem expectingTerminal_iff_leftContext (rule alternative index position : Nat) :
    (∃ id ∈ (parse grammar start tokens).expectingTerminal position, ∃ item,
      itemAt? (parse grammar start tokens).columns id = some item ∧
        item.rule = rule ∧ item.alternative = alternative ∧ item.index = index) ↔
      (∃ element, grammar.element? rule alternative index = some element ∧
        element.symbol.isTerminal = true) ∧
      grammar.LeftContext start (tokens.map Token.id) rule alternative index position := by
  have reads := parse_reads grammar start tokens
  constructor
  · intro given
    obtain ⟨id, listed, item, found, rfl, rfl, rfl⟩ := given
    obtain ⟨rfl, same, foundSame, expectsTerminal⟩ := (mem_expectingTerminal _ _ _).mp listed
    rw [found] at foundSame
    cases foundSame
    obtain ⟨element, expects, terminal⟩ := (Option.any_eq_true _ _).mp expectsTerminal
    have valid := reads.charted.valid found
    exact ⟨⟨element, Item.element?_of_next? expects, terminal⟩, item.origin, valid.begins,
      valid.ordered, valid.within, Item.consumed_before expects valid.matched⟩
  · intro given
    obtain ⟨⟨element, placed, terminal⟩, origin, begins, ordered, within, matched⟩ := given
    obtain ⟨occurred, contained, expects⟩ :=
      reads.reaches (reads.begins begins) placed ordered within matched
    obtain ⟨slot, found⟩ := itemAt?_of_containsAt contained
    refine ⟨⟨position, slot⟩, (mem_expectingTerminal _ _ _).mpr ⟨rfl, _, found, ?_⟩, _, found, rfl, rfl,
      rfl⟩
    exact (Option.any_eq_true _ _).mpr ⟨element, expects, terminal⟩

end Chart

end Typeahead
