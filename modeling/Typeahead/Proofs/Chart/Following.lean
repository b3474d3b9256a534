import Typeahead.Completion.Site
import Typeahead.Proofs.Chart.Climbing
import Typeahead.Proofs.Grammar.Resolution
import Typeahead.Proofs.Grammar.Walking

/-!
Charts of tokens that go on with the literals that must follow. The items on the way are passed one after
the other, so that some item stands behind the last of these literals.
-/

namespace Typeahead

/-- The ids begin with those of the literals. -/
def Vocabulary.Opens (vocabulary : Vocabulary) (literals : List String) (ids : List TokenId) : Prop :=
  literals.map vocabulary.literalId? <+: ids.map some

namespace Vocabulary

variable {vocabulary : Vocabulary} {first others : List String} {ids : List TokenId}

theorem Opens.left (opens : vocabulary.Opens (first ++ others) ids) : vocabulary.Opens first ids := by
  rw [Opens, List.map_append] at opens
  exact (List.prefix_append _ _).trans opens

theorem Opens.right (opens : vocabulary.Opens (first ++ others) ids) :
    vocabulary.Opens others (ids.drop first.length) := by
  rw [Opens, List.map_append] at opens
  have behind := opens.drop first.length
  rwa [List.drop_left' (List.length_map _), ← List.map_drop] at behind

theorem Opens.head {text : String} (opens : vocabulary.Opens [text] ids) :
    ∃ id, ids[0]? = some id ∧ vocabulary.literalId? text = some id := by
  cases ids with
  | nil => simp [Opens] at opens
  | cons id ids => exact ⟨id, rfl, (List.cons_prefix_cons.mp opens).1⟩

end Vocabulary

namespace Column

variable {grammar : Grammar} {columns : Array (Column grammar)} {ids : List TokenId}
  {start position stop : Nat} {item : Item} {element : Element} {walk next : Walk}

def Alive (columns : Array (Column grammar)) (position : Nat) : Prop :=
  ∃ item, ContainsAt columns position item []

/-- Where the literals that a walk finds come next, some item stands behind them, and if the walk goes on,
what it went over has been passed there. -/
def Follows (ids : List TokenId) (columns : Array (Column grammar)) (position : Nat) (walk next : Walk)
    (passed : Nat → Prop) : Prop :=
  ∃ added, next.found = walk.found ++ added ∧
    (grammar.vocabulary.Opens added (ids.drop position) →
      Alive columns (position + added.length) ∧
        (next.stopped = false → passed (position + added.length)))

theorem follows_stop {passed : Nat → Prop} (alive : Alive columns position)
    (found : next.found = walk.found) (stopped : next.stopped = true) :
    Follows ids columns position walk next passed :=
  ⟨[], by rw [found, List.append_nil], fun _ => ⟨alive, fun goes => by rw [stopped] at goes; cases goes⟩⟩

theorem Follows.trans {last : Walk} {passed others : Nat → Prop}
    (follows : Follows ids columns position walk next passed) (goes : next.stopped = false)
    (more : ∀ stop, passed stop → Follows ids columns stop next last others)
    (grows : ∃ later, last.found = next.found ++ later) :
    Follows ids columns position walk last others := by
  obtain ⟨added, found, alive⟩ := follows
  by_cases opens : grammar.vocabulary.Opens added (ids.drop position)
  · obtain ⟨later, foundLater, aliveLater⟩ := more _ ((alive opens).2 goes)
    refine ⟨added ++ later, by rw [foundLater, found, List.append_assoc], fun opens => ?_⟩
    have behind := aliveLater (by rw [← List.drop_drop]; exact opens.right)
    rwa [List.length_append, ← Nat.add_assoc]
  · obtain ⟨later, foundLater⟩ := grows
    exact ⟨added ++ later, by rw [foundLater, found, List.append_assoc],
      fun longer => absurd longer.left opens⟩

theorem Reads.passes_literal (reads : Reads start ids columns)
    (contained : ContainsAt columns position item []) (expects : item.next? grammar = some element)
    {text : String} (opens : grammar.vocabulary.Opens [text] (ids.drop position))
    (accepts : ∀ id, grammar.vocabulary.literalId? text = some id → element.symbol.accepts id = true) :
    ContainsAt columns (position + 1) item.advanced [] := by
  obtain ⟨slot, found⟩ := itemAt?_of_containsAt contained
  obtain ⟨id, first, known⟩ := opens.head
  rw [List.getElem?_drop, Nat.add_zero] at first
  have inside := (List.getElem?_eq_some_iff.mp first).1
  exact (reads.charted.scanned found expects first (accepts id known)
    (by rw [reads.size]; exact Nat.succ_lt_succ inside)).weaken (List.nil_subset _)

theorem Reads.follows_literal (reads : Reads start ids columns)
    (contained : ContainsAt columns position item []) (expects : item.next? grammar = some element)
    {text : String} (found : next.found = walk.found ++ [text])
    (accepts : ∀ id, grammar.vocabulary.literalId? text = some id → element.symbol.accepts id = true) :
    Follows ids columns position walk next fun stop => ContainsAt columns stop item.advanced [] := by
  refine ⟨[text], found, fun opens => ?_⟩
  have passed := reads.passes_literal contained expects opens accepts
  exact ⟨⟨_, passed⟩, fun _ => passed⟩

section Steps

variable {fuel : Nat} (reads : Reads start ids columns)
  (resolved : Rule.Resolved grammar.vocabulary grammar.rules) (whole : grammar.WholeTokens)
  (enough : fuel ≤ grammar.rules.length)
  (enters : ∀ target walk position, walk.stopped = false → Alive columns position →
    Begun columns target position →
      Follows ids columns position walk (Walk.rule grammar fuel target walk)
        (Ended columns target position))

include reads resolved whole enough enters

theorem follows_symbol (contained : ContainsAt columns position item [])
    (expects : item.next? grammar = some element) (goes : walk.stopped = false) :
    Follows ids columns position walk
      (Walk.symbol grammar (Walk.rule grammar fuel) walk element.symbol)
      fun stop => ContainsAt columns stop item.advanced [] := by
  have alive : Alive columns position := ⟨item, contained⟩
  have known := resolved.of_element? (Item.element?_of_next? expects)
  cases symbol : element.symbol with
  | literal text id =>
    rw [symbol] at known
    refine reads.follows_literal contained expects rfl fun other found => ?_
    rw [symbol, known other found]
    exact beq_self_eq_true id
  | token name id =>
    rw [symbol] at known
    simp only [Walk.symbol]
    cases leads : Walk.ruleOfToken? grammar name with
    | none => exact follows_stop alive rfl rfl
    | some rule =>
      rcases whole.found leads known enough goes with ⟨found, stopped⟩ | ⟨text, found, literal⟩
      · exact follows_stop alive found stopped
      · refine reads.follows_literal contained expects found fun other same => ?_
        rw [literal] at same
        rw [symbol, ← Option.some.inj same]
        exact beq_self_eq_true id
  | rule target name =>
    obtain ⟨slot, found⟩ := itemAt?_of_containsAt contained
    have awaits := Item.awaited?_of_target expects (by rw [symbol]; rfl : element.symbol.target? = some target)
    obtain ⟨added, foundAdded, follows⟩ := enters target walk position goes alive fun _ declared =>
      reads.charted.predicted found awaits declared
    refine ⟨added, foundAdded, fun opens => ⟨(follows opens).1, fun goesOn => ?_⟩⟩
    obtain ⟨done, containedDone, complete, rule, origin⟩ := (follows opens).2 goesOn
    obtain ⟨slotDone, foundDone⟩ := itemAt?_of_containsAt containedDone
    exact (reads.charted.completed foundDone complete found origin (rule ▸ awaits)).1
  | noneOf | any => exact follows_stop alive rfl rfl

theorem follows_element (contained : ContainsAt columns position item [])
    (expects : item.next? grammar = some element) (goes : walk.stopped = false) :
    Follows ids columns position walk
      (Walk.element grammar (Walk.rule grammar fuel) walk element)
      fun stop => ContainsAt columns stop item.advanced [] := by
  have occurs := follows_symbol reads resolved whole enough enters contained expects goes
  rw [Walk.element]
  cases element.multiplicity with
  | once => exact occurs
  | plus =>
    obtain ⟨added, found, follows⟩ := occurs
    exact ⟨added, found, fun opens => ⟨(follows opens).1, fun goesOn => by cases goesOn⟩⟩
  | optional | star => exact follows_stop ⟨item, contained⟩ rfl rfl

theorem follows_elements (elements : List Element) (contained : ContainsAt columns position item [])
    (fresh : item.matched = false)
    (ahead : (grammar.elements item.rule item.alternative).drop item.index = elements)
    (goes : walk.stopped = false) :
    Follows ids columns position walk
      (Walk.elements grammar (Walk.rule grammar fuel) walk elements)
      fun stop => ContainsAt columns stop { item with index := item.index + elements.length } [] := by
  induction elements generalizing item position walk with
  | nil => exact ⟨[], (List.append_nil _).symm, fun _ => ⟨⟨item, contained⟩, fun _ => contained⟩⟩
  | cons element elements ih =>
    have placed : item.element? grammar = some element := by
      rw [Item.element?, Grammar.element?, ← List.head?_drop, ahead]
      rfl
    have first := follows_element reads resolved whole enough enters contained
      (next?_of_unmatched fresh placed) goes
    simp only [Walk.elements]
    split
    · rename_i ended
      obtain ⟨added, found, follows⟩ := first
      exact ⟨added, found, fun opens => ⟨(follows opens).1, fun goesOn => by
        rw [ended] at goesOn
        cases goesOn⟩⟩
    · rename_i unstopped
      rw [Bool.not_eq_true] at unstopped
      refine first.trans unstopped (fun stop occurred => ?_) ?_
      · have skippable : item.advanced.canSkip grammar = true := by
          rw [Item.canSkip, show item.advanced.element? grammar = some element from placed]
          rfl
        have passed := reads.charted.skipped occurred skippable
        have rest : (grammar.elements item.advanced.skipped.rule item.advanced.skipped.alternative).drop
            item.advanced.skipped.index = elements := by
          show (grammar.elements item.rule item.alternative).drop (item.index + 1) = elements
          rw [← List.tail_drop, ahead, List.tail_cons]
        have final := ih passed rfl rest unstopped
        rw [List.length_cons, ← Nat.add_assoc, Nat.add_right_comm]
        simpa only [Item.skipped, Item.advanced, fresh] using final
      · obtain ⟨later, found, _⟩ := Walk.elements_leads (Walk.rule_leads fuel)
          (Walk.element grammar (Walk.rule grammar fuel) walk element) elements
        exact ⟨later, found⟩

end Steps

section Walks

variable (reads : Reads start ids columns)
  (resolved : Rule.Resolved grammar.vocabulary grammar.rules) (whole : grammar.WholeTokens)

include reads resolved whole

theorem follows_rule {fuel : Nat} (enough : fuel ≤ grammar.rules.length) (target : Nat) (walk : Walk)
    (position : Nat) (goes : walk.stopped = false) (alive : Alive columns position)
    (begun : Begun columns target position) :
    Follows ids columns position walk (Walk.rule grammar fuel target walk)
      (Ended columns target position) := by
  induction fuel generalizing target walk position with
  | zero => exact follows_stop alive rfl rfl
  | succ fuel ih =>
    have enters := ih (Nat.le_of_succ_le enough)
    rw [Walk.rule]
    split
    · exact follows_stop alive rfl rfl
    · split
      · rename_i alternative single
        have first : (grammar.alternatives target)[0]? = some alternative := by rw [single]; rfl
        have elements : grammar.elements target 0 = alternative.elements := by
          rw [Grammar.elements, first, Option.map_some, Option.getD_some]
        have contained := begun 0 (by rw [single]; exact Nat.one_pos)
        obtain ⟨added, found, follows⟩ : Follows ids columns position
            { walk with entered := target :: walk.entered } _ _ :=
          follows_elements reads resolved whole (Nat.le_of_succ_le enough) enters alternative.elements
            contained rfl (by rw [← elements]; rfl) goes
        refine ⟨added, found, fun opens => ⟨(follows opens).1, fun goesOn => ?_⟩⟩
        refine ⟨_, (follows opens).2 goesOn, ?_, rfl, rfl⟩
        simp [Item.isComplete, Item.start, elements]
      · exact follows_stop alive rfl rfl

/-- Where the literals come next that are foreseen of an element, the element has been passed behind them,
unless something unknown may follow. -/
theorem follows_foresight (contained : ContainsAt columns position item [])
    (expects : item.next? grammar = some element)
    (opens : grammar.vocabulary.Opens (grammar.foresee element).literals (ids.drop position)) :
    Alive columns (position + (grammar.foresee element).literals.length) ∧
      ((grammar.foresee element).stops = false →
        ContainsAt columns (position + (grammar.foresee element).literals.length) item.advanced []) := by
  obtain ⟨added, found, follows⟩ : Follows ids columns position {} _ _ :=
    follows_element reads resolved whole (Nat.le_refl _)
      (fun target walk position => follows_rule reads resolved whole (Nat.le_refl _) target walk position)
      contained expects rfl
  have same : (grammar.foresee element).literals = added := found
  rw [same] at opens ⊢
  exact follows opens

/-- Where an element has occurred, the literals come next that must follow along its alternative, and some
item stands behind them, if one does behind those that must follow outside. -/
theorem follows_along {outer : List String} {multiplicity : Multiplicity} (rest : List Element)
    (contained : ContainsAt columns position item []) (occurred : item.matched = true)
    (placed : item.element? grammar = some element)
    (ahead : (grammar.elements item.rule item.alternative).drop (item.index + 1) = rest)
    (outward : ∀ stop done, ContainsAt columns stop done [] → done.isComplete grammar = true →
      done.rule = item.rule → done.origin = item.origin →
      grammar.vocabulary.Opens outer (ids.drop stop) → Alive columns (stop + outer.length))
    (opens : grammar.vocabulary.Opens (Site.literalsAlong grammar outer multiplicity rest)
      (ids.drop position)) :
    Alive columns (position + (Site.literalsAlong grammar outer multiplicity rest).length) := by
  have skippable : item.canSkip grammar = true := by
    rw [Item.canSkip, placed, Option.any_some, occurred, Bool.true_or]
  have passed := reads.charted.skipped contained skippable
  induction rest generalizing item element position multiplicity with
  | nil =>
    rw [Site.literalsAlong] at opens ⊢
    split
    · exact ⟨item, contained⟩
    · rename_i single
      rw [if_neg single] at opens
      have last := List.drop_eq_nil_iff.mp ahead
      have inside := Item.index_lt_of_element? placed
      have complete : item.skipped.isComplete grammar = true :=
        beq_iff_eq.mpr (Nat.le_antisymm (Nat.succ_le_of_lt inside) last)
      exact outward position item.skipped passed complete rfl rfl opens
  | cons next rest ih =>
    rw [Site.literalsAlong] at opens ⊢
    split
    · exact ⟨item, contained⟩
    · rename_i required
      rw [if_neg required] at opens
      have placedNext : item.skipped.element? grammar = some next := by
        show (grammar.elements item.rule item.alternative)[item.index + 1]? = some next
        rw [← List.head?_drop, ahead]
        rfl
      have expects := next?_of_unmatched rfl placedNext
      dsimp only at opens ⊢
      split
      · rename_i stops
        rw [if_pos stops] at opens
        exact (follows_foresight reads resolved whole passed expects opens).1
      · rename_i goes
        rw [if_neg goes] at opens
        have stop := (follows_foresight reads resolved whole passed expects opens.left).2
          (by simpa using goes)
        have rest : (grammar.elements item.rule item.alternative).drop (item.index + 1 + 1) = rest := by
          rw [← List.tail_drop, ahead, List.tail_cons]
        have behind := opens.right
        rw [List.drop_drop] at behind
        have skippable : item.skipped.advanced.canSkip grammar = true := by
          rw [Item.canSkip, show item.skipped.advanced.element? grammar = some next from placedNext]
          rfl
        rw [List.length_append, ← Nat.add_assoc]
        exact ih stop rfl placedNext rest outward behind skippable (reads.charted.skipped stop skippable)

end Walks

end Column

section Frame

variable {grammar : Grammar} {start rule position place : Nat} {ids others : List TokenId}

theorem span_congr (same : ids.take place = others.take place) (first : Nat) {stop : Nat}
    (before : stop ≤ place) : span ids first stop = span others first stop := by
  have cut := congrArg (List.take stop) same
  rw [List.take_take, List.take_take, Nat.min_eq_left before] at cut
  rw [span, span, cut]

theorem le_length_of_take (same : ids.take place = others.take place) (before : position ≤ place)
    (within : position ≤ ids.length) : position ≤ others.length := by
  have lengths := congrArg List.length same
  rw [List.length_take, List.length_take] at lengths
  omega

/-- Where a rule may begin depends on the tokens before that place alone. -/
theorem Grammar.Begins.congr (begins : grammar.Begins start ids rule position)
    (same : ids.take place = others.take place) (before : position ≤ place) :
    grammar.Begins start others rule position := by
  induction begins with
  | start => exact .start
  | reference outer placed refers ordered within matched ih =>
    exact .reference (ih (Nat.le_trans ordered before)) placed refers ordered
      (le_length_of_take same before within) (span_congr same _ before ▸ matched)

end Frame

namespace Column

variable {grammar : Grammar} {columns : Array (Column grammar)} {ids : List TokenId}
  {start place position : Nat} {tokens : List Token} {level : Level} {enclosing : Path}

/-- A level of a chart is found in each other one whose tokens begin alike. -/
theorem Reads.waits (reads : Reads start ids columns)
    (stands : (Chart.parse grammar start tokens).Stands level)
    (same : (tokens.map Token.id).take place = ids.take place) (before : level.node.position ≤ place) :
    ∃ occurred, ContainsAt columns level.node.position { level.item with matched := occurred } [] ∧
      ({ level.item with matched := occurred } : Item).next? grammar = some level.element := by
  have valid := (Chart.parse_reads grammar start tokens).charted.valid stands.found
  refine reads.reaches (reads.begins (valid.begins.congr same (Nat.le_trans valid.ordered before)))
    stands.placed valid.ordered (le_length_of_take same before valid.within) ?_
  rw [← span_congr same _ before]
  exact Item.consumed_before stands.expects valid.matched

/-- Where the element of a level has occurred and the literals come next that must follow it, some item
stands behind them. -/
theorem follows_behind (reads : Reads start ids columns)
    (resolved : Rule.Resolved grammar.vocabulary grammar.rules) (whole : grammar.WholeTokens)
    (ascent : (Chart.parse grammar start tokens).Ascent (level :: enclosing))
    (same : (tokens.map Token.id).take place = ids.take place) (before : level.node.position ≤ place)
    (contained : ContainsAt columns position { level.item with matched := true } [])
    (opens : grammar.vocabulary.Opens (Site.literalsBehind grammar (level :: enclosing))
      (ids.drop position)) :
    Alive columns (position + (Site.literalsBehind grammar (level :: enclosing)).length) := by
  induction enclosing generalizing level position with
  | nil =>
    rw [Site.literalsBehind] at opens ⊢
    exact follows_along reads resolved whole _ contained rfl ascent.stands.placed rfl
      (fun _ done containedDone _ _ _ _ => ⟨done, containedDone⟩) opens
  | cons next others ih =>
    rw [Site.literalsBehind] at opens ⊢
    refine follows_along reads resolved whole _ contained rfl ascent.stands.placed rfl ?_ opens
    intro stop done containedDone complete rule origin opens
    cases ascent with
    | step stands awaits outer =>
      have valid := (Chart.parse_reads grammar start tokens).charted.valid stands.found
      have earlier : next.node.position ≤ place := by
        rw [awaits.position]
        exact Nat.le_trans valid.ordered before
      obtain ⟨occurred, waiting, expects⟩ := reads.waits outer.stands same earlier
      obtain ⟨slot, found⟩ := itemAt?_of_containsAt waiting
      obtain ⟨slotDone, foundDone⟩ := itemAt?_of_containsAt containedDone
      have awaited := Item.awaited?_of_target expects (awaits.refers outer.stands)
      exact ih outer earlier (reads.charted.completed foundDone complete found
        (by rw [origin, awaits.position]) (by rw [awaited, rule])).1 opens

end Column

namespace Chart

open Column

/-- Tokens up to a level, one that its element accepts, and then the literals that must follow it: an item
stands behind all of them. -/
theorem Ascent.goes_on {grammar : Grammar} {start : Nat} {tokens longer : List Token} {level : Level}
    {enclosing : Path} (ascent : (parse grammar start tokens).Ascent (level :: enclosing))
    (resolved : Rule.Resolved grammar.vocabulary grammar.rules) (whole : grammar.WholeTokens)
    {token : Token} {more : List Token}
    (split : longer.map Token.id =
      (tokens.map Token.id).take level.node.position ++ token.id :: more.map Token.id)
    (accepted : level.element.symbol.accepts token.id = true)
    (literals : (Site.literalsBehind grammar (level :: enclosing)).map grammar.vocabulary.literalId? =
      more.map fun token => some token.id) :
    0 < ((parse grammar start longer).column longer.length).nodes.size := by
  have reads := parse_reads grammar start longer
  have within := ((parse_reads grammar start tokens).charted.valid ascent.stands.found).within
  have front : ((tokens.map Token.id).take level.node.position).length = level.node.position :=
    List.length_take_of_le within
  have same : (tokens.map Token.id).take level.node.position =
      (longer.map Token.id).take level.node.position := by
    rw [split, List.take_left' front]
  have size : longer.length = level.node.position + 1 + more.length := by
    have lengths := congrArg List.length split
    rw [List.length_map, List.length_append, front, List.length_cons, List.length_map] at lengths
    omega
  have next : (longer.map Token.id)[level.node.position]? = some token.id := by
    rw [split, List.getElem?_append_right (Nat.le_of_eq front), front, Nat.sub_self]
    rfl
  have behind : (longer.map Token.id).drop (level.node.position + 1) = more.map Token.id := by
    rw [split, ← List.drop_drop, List.drop_left' front]
    rfl
  have opens : grammar.vocabulary.Opens (Site.literalsBehind grammar (level :: enclosing))
      ((longer.map Token.id).drop (level.node.position + 1)) := by
    rw [behind, Vocabulary.Opens, literals, List.map_map]
    exact List.prefix_rfl
  obtain ⟨occurred, waiting, expects⟩ := reads.waits ascent.stands same (Nat.le_refl _)
  obtain ⟨slot, found⟩ := itemAt?_of_containsAt waiting
  have inside : level.node.position + 1 < (parse grammar start longer).columns.size := by
    rw [reads.size, List.length_map]
    omega
  have scanned := (reads.charted.scanned found expects next accepted inside).weaken (List.nil_subset _)
  have alive : Alive (parse grammar start longer).columns (level.node.position + 1 +
      (Site.literalsBehind grammar (level :: enclosing)).length) :=
    follows_behind reads resolved whole ascent same (Nat.le_refl _) scanned opens
  have lengths := congrArg List.length literals
  rw [List.length_map, List.length_map] at lengths
  rw [lengths, ← size] at alive
  obtain ⟨item, column, inChart, slot, node, placed, _⟩ := alive
  rw [Chart.column, inChart, Option.getD_some]
  exact Nat.lt_of_le_of_lt (Nat.zero_le _) (Array.getElem?_eq_some_iff.mp placed).1

end Chart

end Typeahead
