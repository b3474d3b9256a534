import Typeahead.Proofs.Chart.Drafting
import Typeahead.Proofs.Chart.Tables
import Typeahead.Proofs.Grammar.Scanning

/-!
What every insertion keeps of a chart under construction. Its tables agree, all that it stores leads somewhere,
and where a position has nothing left to do it is closed under prediction, skipping and completion.
-/

namespace Typeahead

theorem Grammar.lt_of_declared {grammar : Grammar} {rule alternative : Nat}
    (declared : alternative < (grammar.alternatives rule).length) : rule < grammar.rules.length := by
  by_contra outside
  rw [alternatives, List.getElem?_eq_none (Nat.le_of_not_lt outside)] at declared
  exact Nat.not_lt_zero alternative declared

namespace Column

variable {grammar : Grammar} {column later : Column grammar} {earlier : Array (Column grammar)}
  {ids : List TokenId} {start slot : Nat} {item : Item} {links : List Link} {node : Node} {call : Call}

/-- A call may be made: what it inserts holds at the position and its links are last matches, or else its one
link leads from the node to itself. -/
inductive Justified (start : Nat) (ids : List TokenId) (earlier : Array (Column grammar))
    (column : Column grammar) : Call → Prop where
  | insert {item : Item} {links : List Link} (valid : item.Valid grammar start ids earlier.size)
      (reached : ∀ link ∈ links, ReachedBy ids (earlier.push column) earlier.size item link) :
      Justified start ids earlier column (.insert item links)
  | loop {slot : Nat} {node : Node} {link : Link} (placed : column.nodes[slot]? = some node)
      (loop : link.previous = ⟨earlier.size, slot⟩) :
      Justified start ids earlier column (.insert node.item [link])
  | skip {slot : Nat} {node : Node} (placed : column.nodes[slot]? = some node)
      (skippable : node.item.canSkip grammar = true) : Justified start ids earlier column (.skip slot)

theorem Justified.mono (justified : Justified start ids earlier column call)
    (extended : later.Extends column) : Justified start ids earlier later call := by
  cases justified with
  | insert valid reached =>
    exact .insert valid fun link member => (reached link member).mono fun _ _ => extended.itemAt?
  | loop placed loop =>
    obtain ⟨node, placedLater, same, _⟩ := extended _ _ placed
    rw [← same]
    exact .loop placedLater loop
  | skip placed skippable =>
    obtain ⟨node, placedLater, same, _⟩ := extended _ _ placed
    exact .skip placedLater (same ▸ skippable)

theorem Justified.starts {rule : Nat} (begins : grammar.Begins start ids rule earlier.size)
    (within : earlier.size ≤ ids.length) :
    ∀ call ∈ Call.starts grammar rule earlier.size, Justified start ids earlier column call := by
  intro call listed
  obtain ⟨alternative, declared, rfl⟩ := List.mem_map.mp listed
  exact .insert (.of_begins begins (List.mem_range.mp declared) within) (List.forall_mem_nil _)

theorem Justified.advance (all : AllValid start ids earlier) (sound : column.Sound start ids earlier)
    {waiterId : NodeId} {waiter done : Item}
    (found : itemAt? (earlier.push column) waiterId = some waiter)
    (awaits : waiter.awaited? grammar = some done.rule)
    (completed : itemAt? (earlier.push column) ⟨earlier.size, slot⟩ = some done)
    (complete : done.isComplete grammar = true) (origin : done.origin = waiterId.position) :
    Justified start ids earlier column (.advance waiterId waiter ⟨earlier.size, slot⟩) := by
  by_cases loop : waiterId.position = earlier.size ∧ waiter.advanced = waiter
  · obtain ⟨here, same⟩ := loop
    obtain ⟨place, node, rfl, placed, rfl⟩ := node_of_itemAt? found here
    rw [Call.advance, same]
    exact .loop placed rfl
  · exact .insert (valid_advanced all sound found awaits completed complete origin)
      (List.forall_mem_singleton.mpr
        (reachedBy_advanced all sound found awaits completed complete origin loop))

/-- The turn of a node makes calls that may be made. -/
theorem justified_turn (all : AllValid start ids earlier) (sound : column.Sound start ids earlier)
    (slot : Nat) : ∀ call ∈ column.turn earlier slot, Justified start ids earlier column call := by
  rw [turn]
  cases placed : column.nodes[slot]? with
  | none => exact List.forall_mem_nil _
  | some node =>
    have valid := sound.valid slot node placed
    have here := itemAt?_of_node earlier placed
    dsimp only
    split
    · rename_i complete
      intro call listed
      obtain ⟨⟨waiter, place⟩, waits, rfl⟩ := List.mem_map.mp listed
      obtain ⟨found, awaits⟩ := (mem_waitersOf valid.ordered waiter place).mp waits
      exact .advance all sound found awaits here complete rfl
    · refine List.forall_mem_append.mpr ⟨?_, ?_⟩
      · rw [predictions]
        cases awaits : node.item.awaited? grammar with
        | none => exact List.forall_mem_nil _
        | some target =>
          refine List.forall_mem_append.mpr ⟨.starts (valid.awaited awaits) valid.within, ?_⟩
          intro call listed
          obtain ⟨place, before, rfl⟩ := List.mem_map.mp listed
          obtain ⟨_, done, found, rfl, origin, complete⟩ := (mem_emptyBefore _ _ _ _).mp before
          exact .advance all sound here awaits found complete origin
      · split
        · rename_i skippable
          exact List.forall_mem_singleton.mpr (.skip placed skippable)
        · exact List.forall_mem_nil _

end Column

namespace Draft

open Column

variable {grammar : Grammar} {start : Nat} {ids : List TokenId} {tokens : List Token}
  {draft later : Draft grammar} {call : Call} {calls : List Call}

/-- What a draft rests on: its columns are sound, each node in the growing one has had its turn or waits for
it, and the calls to come may be made. -/
structure Supported (start : Nat) (ids : List TokenId) (draft : Draft grammar) : Prop where
  earlier : AllSound start ids draft.earlier
  sound : draft.column.Sound start ids draft.earlier
  agenda : ∃ turned, turned ≤ draft.column.nodes.size ∧
    draft.agenda = List.range' turned (draft.column.nodes.size - turned)
  calls : ∀ call ∈ draft.calls, Justified start ids draft.earlier draft.column call

theorem Supported.initial (grammar : Grammar) (start : Nat) (ids : List TokenId) :
    (first grammar start).Supported start ids where
  earlier := by
    intro position column inChart
    simp [first] at inChart
  sound := .of_empty rfl
  agenda := ⟨0, Nat.le_refl 0, rfl⟩
  calls :=
    have begins : grammar.Begins start ids start (#[] : Array (Column grammar)).size := .start
    .starts begins (Nat.zero_le _)

/-- One insertion keeps all of this, and so does a skip, which only calls for one. -/
theorem Supported.make (supported : draft.Supported start ids) (front : draft.calls = call :: calls) :
    (draft.make call calls).Supported start ids := by
  obtain ⟨earlier, sound, ⟨turned, within, waits⟩, justified⟩ := supported
  rw [front] at justified
  obtain ⟨first, others⟩ := List.forall_mem_cons.mp justified
  cases first with
  | @insert item links valid reached =>
    have grown := add_extends draft.column draft.earlier.size item links
    refine ⟨earlier, sound.add valid reached,
      ⟨turned, Nat.le_trans within grown.size_le, ?_⟩, ?_⟩
    · rw [Draft.make, waits]
      exact range'_append_sub within grown.size_le
    · have kept : ∀ call ∈ calls, Justified start ids draft.earlier _ call :=
        fun call listed => (others call listed).mono grown
      dsimp only [Draft.make]
      split
      · rename_i goesOn
        have skippable := (Bool.and_eq_true _ _ ▸ goesOn).2
        refine List.forall_mem_cons.mpr ⟨.insert (valid.skipped skippable) fun link fresh => ?_, kept⟩
        have given := added_subset draft.column draft.earlier.size item links fresh
        exact ((reached link given).mono fun _ _ => grown.itemAt?).skipped skippable
      · exact kept
  | @loop slot node link placed loop =>
    have unchanged : draft.make (.insert node.item [link]) calls =
        ⟨draft.earlier, draft.column, draft.agenda, calls⟩ := by
      simp only [Draft.make, add_loop placed loop, added_self, List.append_nil, List.isEmpty_nil,
        Bool.not_true, Bool.false_and, Bool.false_eq_true, if_false]
    rw [unchanged]
    exact ⟨earlier, sound, ⟨turned, within, waits⟩, others⟩
  | @skip slot node placed skippable =>
    have valid := (sound.valid slot node placed).skipped skippable
    refine ⟨earlier, sound, ⟨turned, within, waits⟩, ?_⟩
    rw [Draft.make, placed, Option.map_some, Option.toList_some]
    exact List.forall_mem_cons.mpr ⟨.insert valid fun link listed =>
      (sound.reached slot node link placed listed).skipped skippable, others⟩

/-- What the token at a position leads to may be inserted behind it. -/
theorem Supported.scan (supported : draft.Supported start (tokens.map Token.id)) {token : Token}
    (present : tokens[draft.earlier.size]? = some token) :
    (draft.scan token).Supported start (tokens.map Token.id) := by
  have allSound := supported.earlier.push supported.sound
  have size : (draft.earlier.push draft.column).size = draft.earlier.size + 1 := Array.size_push _
  have read : (tokens.map Token.id)[draft.earlier.size]? = some token.id := by
    rw [List.getElem?_map, present, Option.map_some]
  refine ⟨allSound, .of_empty rfl, ⟨0, Nat.le_refl 0, rfl⟩, fun call listed => ?_⟩
  obtain ⟨⟨item, slot⟩, kept, rfl⟩ := List.mem_map.mp listed
  obtain ⟨inOrder, accepting⟩ := List.mem_filter.mp kept
  obtain ⟨element, expects, accepted⟩ := (Option.any_eq_true _ _).mp accepting
  have found : itemAt? (draft.earlier.push draft.column) ⟨draft.earlier.size, slot⟩ = some item := by
    rw [itemAt?_push_last]
    exact (mem_inOrder _ _ _).mp inOrder
  have valid := (allSound.allValid _ _ found).advanced_token expects
    (Symbol.isTerminal_of_accepts accepted) read accepted
  refine .insert ?_ (List.forall_mem_singleton.mpr (reachedBy_scanned _ size found expects accepted read))
  rwa [← size] at valid

/-- What a draft does next keeps what it rests on. -/
theorem Supported.next (supported : draft.Supported start (tokens.map Token.id))
    (next : draft.next? tokens = some later) : later.Supported start (tokens.map Token.id) := by
  rw [next?] at next
  split at next
  · rename_i front
    cases next
    exact supported.make front
  · rename_i slot agenda _ waiting
    cases next
    obtain ⟨turned, within, waits⟩ := supported.agenda
    obtain ⟨rfl, left, rest⟩ := List.range'_eq_cons_iff.mp (waits.symm.trans waiting)
    have inside : turned + 1 ≤ draft.column.nodes.size := by omega
    exact ⟨supported.earlier, supported.sound, ⟨turned + 1, inside, rest⟩,
      justified_turn supported.earlier.allValid supported.sound turned⟩
  · obtain ⟨token, present, rfl⟩ := Option.map_eq_some_iff.mp next
    exact supported.scan present

theorem supported_of_reaches (reached : Reaches tokens (first grammar start) draft) :
    draft.Supported start (tokens.map Token.id) := by
  induction reached with
  | refl => exact .initial grammar start _
  | tail _ next ih => exact ih.next next

end Draft

namespace Chart

open Column

variable {grammar : Grammar} {columns : Array (Column grammar)} {column : Column grammar} {start : Nat}
  {tokens : List Token} {vocabulary : Vocabulary} {decls : List RuleDecl}

/-- All that a node at a position stores leads somewhere: to a place in an alternative, to a position in front
of it, and by its links to nodes, elements and tokens. -/
structure Indexed (chart : Chart) (position : Nat) (node : Node) : Prop where
  within : position ≤ chart.tokens.length
  origin : node.item.origin ≤ position
  rule : node.item.rule < chart.grammar.rules.length
  alternative : node.item.alternative < (chart.grammar.alternatives node.item.rule).length
  index : node.item.index + node.item.matched.toNat ≤
    (chart.grammar.elements node.item.rule node.item.alternative).length
  awaited : ∀ target, node.item.awaited? chart.grammar = some target →
    target < chart.grammar.rules.length
  previous : ∀ link ∈ node.links, chart.Holds link.previous
  element : ∀ link ∈ node.links,
    link.index < (chart.grammar.elements node.item.rule node.item.alternative).length
  token : ∀ link ∈ node.links, ∀ index, link.child = .token index → index < chart.tokens.length
  completed : ∀ link ∈ node.links, ∀ id, link.child = .rule id → chart.Holds id

theorem indexed_of_allSound (compiled : Grammar.compile vocabulary decls = .ok grammar)
    (allSound : AllSound start (tokens.map Token.id) columns) {position : Nat} {node : Node}
    (listed : (position, node) ∈ (Chart.mk grammar start tokens columns).arena) :
    (Chart.mk grammar start tokens columns).Indexed position node := by
  obtain ⟨number, numbered⟩ := List.mem_iff_getElem?.mp listed
  obtain ⟨slot, placed, _⟩ := getElem?_arena.mp numbered
  obtain ⟨column, inChart, inColumn⟩ := node?_eq_some_iff.mp placed
  have found : itemAt? columns ⟨position, slot⟩ = some node.item :=
    itemAt?_eq_some_iff.mpr ⟨column, node, inChart, inColumn, rfl⟩
  have valid := allSound.allValid _ _ found
  have within := valid.within
  rw [List.length_map] at within
  have matched : ∀ link ∈ node.links, ∃ previous element, LastMatch (tokens.map Token.id) columns
      (NodeId.mk position slot).position node.item link previous element :=
    fun link member => allSound.reached inChart inColumn member
  refine {
    within := within
    origin := valid.ordered
    rule := Grammar.lt_of_declared valid.declared
    alternative := valid.declared
    index := valid.inside
    awaited := ?_
    previous := ?_
    element := ?_
    token := ?_
    completed := ?_ }
  · intro target awaits
    obtain ⟨element, expects, refers⟩ := Option.bind_eq_some_iff.mp awaits
    have placed := List.mem_of_getElem? (Item.element?_of_next? expects)
    exact (Grammar.compile_elements_refer compiled placed).target_lt refers
  · intro link member
    obtain ⟨previous, element, last⟩ := matched link member
    exact holds_of_itemAt? last.found
  · intro link member
    obtain ⟨previous, element, last⟩ := matched link member
    have same := last.skips.same_alternative
    have inside := Item.index_lt_of_element? (Item.element?_of_next? last.expects)
    rw [last.index, ← same.1, ← same.2.1]
    exact inside
  · intro link member index stored
    obtain ⟨previous, element, last⟩ := matched link member
    have child := last.child
    rw [stored] at child
    obtain ⟨rfl, _, _, id, present, _⟩ := child
    have inside := (List.getElem?_eq_some_iff.mp present).1
    rwa [List.length_map] at inside
  · intro link member id stored
    obtain ⟨previous, element, last⟩ := matched link member
    have child := last.child
    rw [stored] at child
    obtain ⟨_, done, foundDone, _⟩ := child
    exact holds_of_itemAt? foundDone

end Chart

namespace Draft

open Column

variable {grammar : Grammar} {start : Nat} {tokens : List Token} {draft later : Draft grammar}
  {vocabulary : Vocabulary} {decls : List RuleDecl}

/-- The numbers of the nodes that wait for their turn. -/
def waiting (start : Nat) (tokens : List Token) (draft : Draft grammar) : List Nat :=
  draft.agenda.map fun slot => (draft.chart start tokens).serial ⟨draft.earlier.size, slot⟩

/-- The tables of a chart under construction agree: the agenda holds nodes of the growing column once each,
what counts as completed there without a token is, and all that is stored leads somewhere. -/
structure Consistent (start : Nat) (tokens : List Token) (draft : Draft grammar) : Prop where
  tabled : (draft.chart start tokens).Tabled
  waiting_nodup : (draft.waiting start tokens).Nodup
  waiting : ∀ number ∈ draft.waiting start tokens,
    ∃ node, (draft.chart start tokens).arena[number]? = some (draft.earlier.size, node)
  empty : ∀ slot target, ∀ place ∈ draft.column.emptyBefore draft.earlier slot target,
    ∃ node, (draft.chart start tokens).node? ⟨draft.earlier.size, place⟩ = some node ∧
      node.item.rule = target ∧ node.item.origin = draft.earlier.size ∧
      node.item.isComplete grammar = true
  indexed : ∀ position node, (position, node) ∈ (draft.chart start tokens).arena →
    (draft.chart start tokens).Indexed position node

theorem itemAt?_of_reaches (start : Nat) (reaches : Reaches tokens draft later) {id : NodeId} {item : Item}
    (found : itemAt? (draft.earlier.push draft.column) id = some item) :
    itemAt? (later.earlier.push later.column) id = some item ∧
      (later.chart start tokens).serial id = (draft.chart start tokens).serial id := by
  induction reaches with
  | refl => exact ⟨found, rfl⟩
  | @tail between latest _ next ih =>
    obtain ⟨found, same⟩ := ih
    have before : id.position ≤ between.earlier.size := by
      obtain ⟨column, _, inChart, _⟩ := itemAt?_eq_some_iff.mp found
      have inside := (Array.getElem?_eq_some_iff.mp inChart).1
      rw [Array.size_push] at inside
      exact Nat.le_of_lt_succ inside
    rw [← same]
    rcases extends_of_next? next with ⟨earlier, extended⟩ | ⟨_, earlier⟩
    · rw [Draft.chart, Draft.chart, earlier, Chart.serial_push _ _ _ _ before,
        Chart.serial_push _ _ _ _ before]
      exact ⟨extended.itemAt? found, rfl⟩
    · have inside : id.position < latest.earlier.size := by
        rw [earlier, Array.size_push]
        exact Nat.lt_succ_of_le before
      rw [itemAt?_push_of_lt inside, Draft.chart, Chart.serial_push _ _ _ _ (Nat.le_of_lt inside), earlier]
      exact ⟨found, rfl⟩

/-- An item keeps its number, whatever is inserted after it. -/
theorem number?_of_reaches (reaches : Reaches tokens draft later) {position number : Nat} {item : Item}
    (numbered : (draft.chart start tokens).number? position item = some number) :
    (later.chart start tokens).number? position item = some number := by
  obtain ⟨slot, found, count⟩ := Chart.number?_eq_some_iff.mp numbered
  obtain ⟨foundLater, same⟩ := itemAt?_of_reaches start reaches found
  exact Chart.number?_eq_some_iff.mpr ⟨slot, foundLater, same.trans count⟩

theorem consistent_of_supported (compiled : Grammar.compile vocabulary decls = .ok grammar)
    (supported : draft.Supported start (tokens.map Token.id)) : draft.Consistent start tokens where
  tabled := Chart.tabled _
  waiting_nodup := by
    obtain ⟨turned, _, waits⟩ := supported.agenda
    rw [Draft.waiting, waits]
    exact (List.nodup_range' ..).map (Chart.serial_injective _)
  waiting := by
    intro number listed
    obtain ⟨turned, within, waits⟩ := supported.agenda
    obtain ⟨slot, waiting, rfl⟩ := List.mem_map.mp listed
    rw [waits, List.mem_range'_1] at waiting
    have placed := Array.getElem?_eq_getElem (show slot < draft.column.nodes.size by omega)
    refine ⟨draft.column.nodes[slot], Chart.getElem?_arena.mpr ⟨slot, ?_, rfl⟩⟩
    exact Chart.node?_eq_some_iff.mpr ⟨draft.column, Array.getElem?_push_size, placed⟩
  empty := by
    intro slot target place listed
    obtain ⟨_, done, found, rule, origin, complete⟩ := (mem_emptyBefore _ _ _ _).mp listed
    rw [itemAt?_push_last] at found
    obtain ⟨node, placed, rfl⟩ := Option.map_eq_some_iff.mp found
    exact ⟨node, Chart.node?_eq_some_iff.mpr ⟨draft.column, Array.getElem?_push_size, placed⟩, rule,
      origin, complete⟩
  indexed _ _ listed :=
    Chart.indexed_of_allSound compiled (supported.earlier.push supported.sound) listed

/-- Every insertion leaves a chart with tables that agree, in which all that is stored leads somewhere and
items keep their numbers. When a position is closed no node waits there any more, the columns are those of the
finished chart, and the last one is closed under prediction, skipping and completion. Every position comes to
be closed. -/
theorem reaches_consistent (compiled : Grammar.compile vocabulary decls = .ok grammar) (start : Nat)
    (tokens : List Token) :
    let chart := Chart.parse grammar start tokens
    (∀ draft : Draft grammar, Reaches tokens (first grammar start) draft →
      draft.Consistent start tokens ∧
      (∀ later, Reaches tokens draft later → ∀ position item number,
        (draft.chart start tokens).number? position item = some number →
          (later.chart start tokens).number? position item = some number) ∧
      (draft.Closed → draft.waiting start tokens = [] ∧
        chart.columns[draft.earlier.size]? = some draft.column ∧
        chart.columns.extract 0 draft.earlier.size = draft.earlier ∧
        Settled draft.earlier draft.column.nodes.size draft.column) ∧
      Reaches tokens draft ⟨chart.columns.extract 0 tokens.length, chart.column tokens.length, [], []⟩) ∧
    ∀ position ≤ tokens.length, Reaches tokens (first grammar start)
      ⟨chart.columns.extract 0 position, chart.column position, [], []⟩ := by
  have opened := Chart.parse_opened grammar start tokens
  obtain ⟨charted, size⟩ := Chart.parse_charted grammar start tokens
  have inChart : ∀ position ≤ tokens.length, (Chart.parse grammar start tokens).columns[position]? =
      some ((Chart.parse grammar start tokens).column position) := by
    intro position within
    have inside : position < (Chart.parse grammar start tokens).columns.size := by omega
    rw [Chart.column, Array.getElem?_eq_getElem inside, Option.getD_some]
  refine ⟨fun draft reached => ⟨?_, ?_, ?_, ?_⟩, fun position within => ?_⟩
  · exact consistent_of_supported compiled (supported_of_reaches reached)
  · exact fun later goesOn position item number numbered => number?_of_reaches goesOn numbered
  · intro closed
    obtain ⟨placed, front⟩ := columns_of_closed opened charted size reached closed
    have settled := (charted _ _ placed).settled
    rw [front] at settled
    refine ⟨?_, placed, front, settled⟩
    rw [waiting, closed.1, List.map_nil]
  · exact reaches_last opened charted size reached (inChart _ (Nat.le_refl _))
  · exact first_reaches_column opened charted size (inChart position within)

/-- Behind a name both alternatives of its suffix wait first, and keep their numbers while more is found. -/
theorem reaches_consistent_expr :
    let grammar := Sample.expr.toOption.getD ⟨[], .initial⟩
    let tokens := [⟨⟨1⟩, "a", 0, .default⟩]
    let draft := (first grammar 0).run tokens 16
    let last := draft.run tokens 17
    Sample.expr = .ok grammar ∧ Reaches tokens (first grammar 0) draft ∧
      draft.waiting 0 tokens = [5, 6] ∧ draft.Consistent 0 tokens ∧
      Reaches tokens draft last ∧ (draft.chart 0 tokens).number? 1 (.start 2 1 1) = some 6 ∧
      (last.chart 0 tokens).number? 1 (.start 2 1 1) = some 6 ∧ last.Closed ∧
      Settled last.earlier last.column.nodes.size last.column := by
  intro grammar tokens draft last
  have compiled : Sample.expr = .ok grammar := by decide +kernel
  have reached := reaches_run tokens 16 (first grammar 0)
  have goesOn := reaches_run tokens 17 draft
  have numbered : (draft.chart 0 tokens).number? 1 (.start 2 1 1) = some 6 := by decide +kernel
  have closed : last.Closed := ⟨by decide +kernel, by decide +kernel⟩
  obtain ⟨drafts, _⟩ := reaches_consistent compiled 0 tokens
  obtain ⟨consistent, keeps, _⟩ := drafts draft reached
  obtain ⟨_, _, settles, _⟩ := drafts last (reached.trans goesOn)
  exact ⟨compiled, reached, by decide +kernel, consistent, goesOn, numbered,
    keeps last goesOn 1 _ 6 numbered, closed, (settles closed).2.2.2⟩

end Draft

end Typeahead
