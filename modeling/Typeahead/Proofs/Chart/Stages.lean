import Typeahead.Proofs.Chart.Closing

/-!
Charts grow by one column for each token. Each column holds what the columns before it and the token
bring about, and is closed.
-/

namespace Typeahead

theorem Symbol.isTerminal_of_accepts {symbol : Symbol} {id : TokenId}
    (accepted : symbol.accepts id = true) : symbol.isTerminal = true := by
  cases symbol with
  | rule => cases accepted
  | literal | token | noneOf | any => rfl

namespace Column

variable {grammar : Grammar} {column : Column grammar} {earlier : Array (Column grammar)}
  {ids : List TokenId} {start position : Nat}

/-- What holds of the column behind earlier ones: it is sound, all its nodes have had their turn, and the
first one begins the start rule, while others hold what the last token leads to. -/
structure Stage (start : Nat) (ids : List TokenId) (earlier : Array (Column grammar))
    (column : Column grammar) : Prop where
  sound : column.Sound start ids earlier
  settled : Settled earlier column.nodes.size column
  begun : earlier.size = 0 → ∀ alternative, alternative < (grammar.alternatives start).length →
    column.Contains (.start start alternative 0) []
  scanned : ∀ position, earlier.size = position + 1 → ∀ slot item element id,
    itemAt? earlier ⟨position, slot⟩ = some item → item.next? grammar = some element →
    ids[position]? = some id → element.symbol.accepts id = true →
      column.Contains item.advanced [⟨⟨position, slot⟩, item.index, .token position⟩]

theorem Sound.of_empty (empty : column.nodes = #[]) : column.Sound start ids earlier where
  valid _ _ placed := by simp [empty] at placed
  reached _ _ _ placed := by simp [empty] at placed

theorem AllValid.empty : AllValid start ids (#[] : Array (Column grammar)) := by
  intro id item found
  simp [itemAt?] at found

theorem Stage.of_close (all : AllValid start ids earlier) (sound : column.Sound start ids earlier)
    (begun : earlier.size = 0 → ∀ alternative, alternative < (grammar.alternatives start).length →
      column.Contains (.start start alternative 0) [])
    (scanned : ∀ position, earlier.size = position + 1 → ∀ slot item element id,
      itemAt? earlier ⟨position, slot⟩ = some item → item.next? grammar = some element →
      ids[position]? = some id → element.symbol.accepts id = true →
        column.Contains item.advanced [⟨⟨position, slot⟩, item.index, .token position⟩]) :
    Stage start ids earlier (column.close earlier) := by
  obtain ⟨grows, settled⟩ := close_settled all sound
  refine ⟨grows.sound, settled, ?_, ?_⟩
  · intro first alternative declared
    exact (begun first alternative declared).mono grows.kept
  · intro position size slot item element id found expects present accepted
    exact (scanned position size slot item element id found expects present accepted).mono grows.kept

theorem stage_first (grammar : Grammar) (start : Nat) (ids : List TokenId) :
    Stage start ids #[] (Chart.first grammar start) := by
  have empty : ({} : Column grammar).Sound start ids #[] := .of_empty rfl
  have grown := foldl_grows (List.range (grammar.alternatives start).length)
    (fun column alternative => column.insert 0 (.start start alternative 0) [])
    (fun alternative column => column.Contains (.start start alternative 0) [])
    empty (fun _ _ _ extended contained => contained.mono extended) (by
      intro later grown alternative member
      exact insert_grows grown.sound
        (Item.Valid.of_begins .start (List.mem_range.mp member) (Nat.zero_le _)) (by simp))
  refine .of_close .empty grown.1.sound ?_ ?_
  · intro _ alternative declared
    exact grown.2 alternative (List.mem_range.mpr declared)
  · intro position size
    cases size

theorem mem_inOrder (column : Column grammar) (item : Item) (slot : Nat) :
    (item, slot) ∈ column.inOrder ↔ (column.nodes[slot]?).map Node.item = some item := by
  rw [inOrder, Std.TreeMap.mem_toList_iff_getElem?_eq_some, column.slots_iff]

/-- A token that a terminal accepts moves the item in front of it on to the next position. -/
theorem reachedBy_scanned (column : Column grammar) (size : earlier.size = position + 1) {slot : Nat} {item : Item}
    {element : Element} {id : TokenId} (found : itemAt? earlier ⟨position, slot⟩ = some item)
    (expects : item.next? grammar = some element) (accepted : element.symbol.accepts id = true)
    (present : ids[position]? = some id) :
    ReachedBy ids (earlier.push column) earlier.size item.advanced
      ⟨⟨position, slot⟩, item.index, .token position⟩ :=
  ⟨item, element, {
    found := by rwa [itemAt?_push_of_lt (by simp only; omega)]
    expects := expects
    index := rfl
    before := by simp only; omega
    skips := .refl
    consumes := by
      intro same
      simp only at same
      omega
    child := ⟨rfl, size, Symbol.isTerminal_of_accepts accepted, id, present, accepted⟩ }⟩

theorem scan_sound (all : AllValid start ids earlier) (size : earlier.size = position + 1)
    {previous : Column grammar} (last : earlier[position]? = some previous) {id : TokenId}
    (present : ids[position]? = some id) :
    (scan earlier id previous).Sound start ids earlier ∧
      ∀ slot item element, itemAt? earlier ⟨position, slot⟩ = some item →
        item.next? grammar = some element → element.symbol.accepts id = true →
          (scan earlier id previous).Contains item.advanced
            [⟨⟨position, slot⟩, item.index, .token position⟩] := by
  have inPrevious : ∀ item slot, (item, slot) ∈ previous.inOrder ↔
      itemAt? earlier ⟨position, slot⟩ = some item := by
    intro item slot
    rw [mem_inOrder, itemAt?, last, Option.bind_some]
  have here : earlier.size - 1 = position := by omega
  have empty : ({} : Column grammar).Sound start ids earlier := .of_empty rfl
  obtain ⟨grows, promised⟩ := foldl_grows
    (previous.inOrder.filter fun place => (place.1.next? grammar).any (·.symbol.accepts id))
    (fun column place => column.insert earlier.size place.1.advanced
      [⟨⟨earlier.size - 1, place.2⟩, place.1.index, .token (earlier.size - 1)⟩])
    (fun place column => column.Contains place.1.advanced
      [⟨⟨position, place.2⟩, place.1.index, .token position⟩])
    empty (fun _ _ _ extended contained => contained.mono extended) (by
      intro later grown entry member
      obtain ⟨item, slot⟩ := entry
      obtain ⟨listed, accepting⟩ := List.mem_filter.mp member
      obtain ⟨element, expects, accepted⟩ := (Option.any_eq_true _ _).mp accepting
      have found := (inPrevious item slot).mp listed
      have terminal := Symbol.isTerminal_of_accepts accepted
      have valid := (all _ _ found).advanced_token expects terminal present accepted
      rw [← size] at valid
      simp only [here]
      exact insert_grows grown.sound valid
        (List.forall_mem_singleton.mpr (reachedBy_scanned later size found expects accepted present)))
  refine ⟨grows.sound, fun slot item element found expects accepted => ?_⟩
  exact promised (item, slot) (List.mem_filter.mpr
    ⟨(inPrevious item slot).mpr found, by simp [expects, accepted]⟩)

/-- What holds of all columns behind those before them holds when one is pushed of which it holds. -/
theorem forall_push {columns : Array (Column grammar)}
    {holds : Array (Column grammar) → Column grammar → Prop}
    (all : ∀ position column, columns[position]? = some column →
      holds (columns.extract 0 position) column)
    (last : holds columns column) (position : Nat) (other : Column grammar)
    (placed : (columns.push column)[position]? = some other) :
    holds ((columns.push column).extract 0 position) other := by
  rw [Array.getElem?_push] at placed
  split at placed
  · rename_i here
    cases placed
    rw [here, Array.extract_push_of_le (Nat.le_refl _), Array.extract_size]
    exact last
  · have inside := (Array.getElem?_eq_some_iff.mp placed).1
    rw [Array.extract_push_of_le (Nat.le_of_lt inside)]
    exact all position other placed

def AllSound (start : Nat) (ids : List TokenId) (columns : Array (Column grammar)) : Prop :=
  ∀ position column, columns[position]? = some column →
    Sound start ids (columns.extract 0 position) column

def Charted (start : Nat) (ids : List TokenId) (columns : Array (Column grammar)) : Prop :=
  ∀ position column, columns[position]? = some column →
    Stage start ids (columns.extract 0 position) column

theorem Charted.allSound {columns : Array (Column grammar)} (charted : Charted start ids columns) :
    AllSound start ids columns := fun position column inChart => (charted position column inChart).sound

theorem Charted.push {columns : Array (Column grammar)} (charted : Charted start ids columns)
    (stage : Stage start ids columns column) : Charted start ids (columns.push column) :=
  forall_push charted stage

theorem AllSound.push {columns : Array (Column grammar)} (allSound : AllSound start ids columns)
    (sound : column.Sound start ids columns) : AllSound start ids (columns.push column) :=
  forall_push allSound sound

def ContainsAt (columns : Array (Column grammar)) (position : Nat) (item : Item) (links : List Link) :
    Prop :=
  ∃ column, columns[position]? = some column ∧ column.Contains item links

section Closure

variable {columns : Array (Column grammar)} {item : Item} {links : List Link} {id : NodeId}

theorem itemAt?_of_containsAt (contained : ContainsAt columns position item links) :
    ∃ slot, itemAt? columns ⟨position, slot⟩ = some item := by
  obtain ⟨column, found, slot, node, placed, same, _⟩ := contained
  exact ⟨slot, itemAt?_eq_some_iff.mpr ⟨column, node, found, placed, same⟩⟩

theorem ContainsAt.weaken {fewer : List Link} (contained : ContainsAt columns position item links)
    (subset : fewer ⊆ links) : ContainsAt columns position item fewer := by
  obtain ⟨column, found, slot, node, placed, same, present⟩ := contained
  exact ⟨column, found, slot, node, placed, same, List.Subset.trans subset present⟩

theorem size_extract (placed : columns[position]? = some column) :
    (columns.extract 0 position).size = position := by
  have inside := (Array.getElem?_eq_some_iff.mp placed).1
  rw [Array.size_extract_of_le (Nat.le_of_lt inside), Nat.sub_zero]

theorem itemAt?_extract {stop : Nat} (before : id.position < stop) (within : stop ≤ columns.size) :
    itemAt? (columns.extract 0 stop) id = itemAt? columns id := by
  have same : (columns.extract 0 stop)[id.position]? = columns[id.position]? := by
    rw [Array.getElem?_extract, if_pos (by omega), Nat.zero_add]
  rw [itemAt?, itemAt?, same]

/-- Up to its position a stage shows what the whole chart shows. -/
theorem itemAt?_stage (placed : columns[position]? = some column) (before : id.position ≤ position) :
    itemAt? ((columns.extract 0 position).push column) id = itemAt? columns id := by
  obtain ⟨inside, same⟩ := Array.getElem?_eq_some_iff.mp placed
  have joined : (columns.extract 0 position).push column = columns.extract 0 (position + 1) := by
    rw [← same, Array.push_extract_getElem inside, Nat.min_eq_left (Nat.zero_le _)]
  rw [joined, itemAt?_extract (Nat.lt_succ_of_le before) inside]

theorem AllSound.allValid (allSound : AllSound start ids columns) : AllValid start ids columns := by
  intro id item found
  obtain ⟨column, node, inChart, placed, rfl⟩ := itemAt?_eq_some_iff.mp found
  have valid := (allSound _ _ inChart).valid _ _ placed
  rwa [size_extract inChart] at valid

theorem Charted.valid (charted : Charted start ids columns) (found : itemAt? columns id = some item) :
    item.Valid grammar start ids id.position := charted.allSound.allValid id item found

/-- What is a last match when a position is done is one in the whole chart. -/
theorem ReachedBy.of_stage {link : Link} (placed : columns[position]? = some column)
    (reached : ReachedBy ids ((columns.extract 0 position).push column) position item link) :
    ReachedBy ids columns position item link := by
  obtain ⟨previous, element, last⟩ := reached
  refine ⟨previous, element, { last with
    found := ?_
    child := ?_ }⟩
  · rw [← itemAt?_stage placed last.before]
    exact last.found
  · have child := last.child
    cases matched : link.child with
    | token index =>
      rw [matched] at child
      exact child
    | rule completed =>
      rw [matched] at child
      obtain ⟨here, done, found, complete⟩ := child
      rw [itemAt?_stage placed (Nat.le_of_eq here)] at found
      exact ⟨here, done, found, complete⟩

theorem AllSound.reached {node : Node} {link : Link} (allSound : AllSound start ids columns)
    (inChart : columns[id.position]? = some column) (placed : column.nodes[id.slot]? = some node)
    (member : link ∈ node.links) : ReachedBy ids columns id.position node.item link := by
  have reached := (allSound _ _ inChart).reached id.slot node link placed member
  rw [size_extract inChart] at reached
  exact reached.of_stage inChart

theorem Charted.reached {node : Node} {link : Link} (charted : Charted start ids columns)
    (inChart : columns[id.position]? = some column) (placed : column.nodes[id.slot]? = some node)
    (member : link ∈ node.links) : ReachedBy ids columns id.position node.item link :=
  charted.allSound.reached inChart placed member

theorem Charted.begun (charted : Charted start ids columns) (first : columns[0]? = some column)
    {alternative : Nat} (declared : alternative < (grammar.alternatives start).length) :
    ContainsAt columns 0 (.start start alternative 0) [] :=
  ⟨column, first, (charted 0 column first).begun (size_extract first) alternative declared⟩

theorem Charted.predicted (charted : Charted start ids columns)
    (found : itemAt? columns id = some item) {target alternative : Nat}
    (awaits : item.awaited? grammar = some target)
    (declared : alternative < (grammar.alternatives target).length) :
    ContainsAt columns id.position (.start target alternative id.position) [] := by
  obtain ⟨column, node, inChart, placed, rfl⟩ := itemAt?_eq_some_iff.mp found
  have stage := charted _ _ inChart
  have predicted := stage.settled.predicted id.slot node.item target alternative
    (Array.getElem?_eq_some_iff.mp placed).1 (itemAt?_of_node _ placed) awaits declared
  rw [size_extract inChart] at predicted
  exact ⟨column, inChart, predicted⟩

theorem Charted.skipped (charted : Charted start ids columns)
    (contained : ContainsAt columns position item links) (skippable : item.canSkip grammar = true) :
    ContainsAt columns position item.skipped links := by
  obtain ⟨column, inChart, slot, node, placed, rfl, present⟩ := contained
  obtain ⟨slot', target, placedTarget, same, passed⟩ := (charted _ _ inChart).settled.skipped slot
    (Array.getElem?_eq_some_iff.mp placed).1 node placed skippable
  exact ⟨column, inChart, slot', target, placedTarget, same, List.Subset.trans present passed⟩

theorem Charted.skipsTo {later : Item} (charted : Charted start ids columns)
    (contained : ContainsAt columns position item links) (skips : item.SkipsTo grammar later) :
    ContainsAt columns position later links := by
  induction skips with
  | refl => exact contained
  | tail _ last ih =>
    rw [last.2]
    exact charted.skipped ih last.1

theorem Charted.completed (charted : Charted start ids columns) {waiterId : NodeId}
    {waiter done : Item} (found : itemAt? columns id = some done)
    (complete : done.isComplete grammar = true) (foundWaiter : itemAt? columns waiterId = some waiter)
    (origin : done.origin = waiterId.position) (awaits : waiter.awaited? grammar = some done.rule) :
    ContainsAt columns id.position waiter.advanced [] ∧
      ((waiterId.position = id.position → waiter.advanced ≠ waiter) →
        ContainsAt columns id.position waiter.advanced [⟨waiterId, waiter.index, .rule id⟩]) := by
  have ordered := (charted.valid found).ordered
  obtain ⟨column, node, inChart, placed, rfl⟩ := itemAt?_eq_some_iff.mp found
  obtain ⟨place, slot⟩ := id
  obtain ⟨from', slotWaiter⟩ := waiterId
  simp only at origin ordered inChart placed
  subst origin
  have size := size_extract inChart
  have foundWaiter' := foundWaiter
  rw [← itemAt?_stage inChart ordered] at foundWaiter'
  have advanced := (charted _ _ inChart).settled.completed slot node.item slotWaiter waiter
    (Array.getElem?_eq_some_iff.mp placed).1 (itemAt?_of_node _ placed) complete foundWaiter' awaits
    (by
      intro here
      rw [size] at here
      obtain ⟨_, other, inChart', placedWaiter, _⟩ := itemAt?_eq_some_iff.mp foundWaiter
      simp only [here, inChart, Option.some.injEq] at inChart' placedWaiter
      subst inChart'
      exact (Array.getElem?_eq_some_iff.mp placedWaiter).1)
  rw [size] at advanced
  exact ⟨⟨column, inChart, advanced.1⟩, fun apart => ⟨column, inChart, advanced.2 apart⟩⟩

theorem Charted.scanned (charted : Charted start ids columns) (found : itemAt? columns id = some item)
    {element : Element} {token : TokenId} (expects : item.next? grammar = some element)
    (present : ids[id.position]? = some token) (accepted : element.symbol.accepts token = true)
    (inside : id.position + 1 < columns.size) :
    ContainsAt columns (id.position + 1) item.advanced
      [⟨id, item.index, .token id.position⟩] := by
  have inChart := Array.getElem?_eq_getElem inside
  have before : itemAt? (columns.extract 0 (id.position + 1)) id = some item := by
    rw [itemAt?_extract (Nat.lt_succ_self _) (Nat.le_of_lt inside), found]
  exact ⟨_, inChart, (charted _ _ inChart).scanned id.position (size_extract inChart) id.slot item
    element token before expects present accepted⟩

end Closure

end Column

namespace Chart

open Column

variable {grammar : Grammar} {start : Nat} {ids : List TokenId} {columns : Array (Column grammar)}

theorem itemAt?_columns (chart : Chart) (id : NodeId) :
    itemAt? chart.columns id = (chart.node? id).map Node.item := by
  unfold itemAt? node? column
  cases chart.columns[id.position]? with
  | none => simp
  | some column => rfl

theorem mem_links (chart : Chart) (id : NodeId) (link : Link) : link ∈ chart.links id ↔
    ∃ (column : Column chart.grammar) (node : Node), chart.columns[id.position]? = some column ∧
      column.nodes[id.slot]? = some node ∧ link ∈ node.links := by
  unfold links node? column
  cases chart.columns[id.position]? with
  | none => simp
  | some column => cases placed : column.nodes[id.slot]? <;> simp [placed]

theorem extend_charted (charted : Charted start ids columns) {position : Nat}
    (size : columns.size = position + 1) {token : Token} (present : ids[position]? = some token.id) :
    Charted start ids (extend columns token) := by
  have inside : position < columns.size := by omega
  have last := Array.getElem?_eq_getElem inside
  have back : columns.back?.getD {} = columns[position] := by
    simp [Array.back?, size]
  have all := charted.allSound.allValid
  obtain ⟨sound, scanned⟩ := scan_sound all size last present
  rw [extend, back]
  refine charted.push (.of_close all sound ?_ ?_)
  · intro empty
    omega
  · intro position' size' slot item element id found expects present' accepted
    have same : position' = position := by omega
    subst same
    rw [present] at present'
    cases present'
    exact scanned slot item element found expects accepted

theorem foldl_extend_charted (tokens : List Token) (charted : Charted start ids columns)
    {position : Nat} (size : columns.size = position + 1)
    (ahead : ids.drop position = tokens.map Token.id) :
    Charted start ids (tokens.foldl extend columns) ∧
      (tokens.foldl extend columns).size = position + 1 + tokens.length := by
  induction tokens generalizing columns position with
  | nil => exact ⟨charted, size⟩
  | cons token tokens ih =>
    have present : ids[position]? = some token.id := by
      rw [← List.head?_drop, ahead, List.map_cons, List.head?_cons]
    have rest : ids.drop (position + 1) = tokens.map Token.id := by
      rw [← List.tail_drop, ahead, List.map_cons, List.tail_cons]
    have grown : (extend columns token).size = position + 1 + 1 := by
      rw [extend, Array.size_push, size]
    obtain ⟨charts, sizes⟩ := ih (extend_charted charted size present) grown rest
    refine ⟨charts, ?_⟩
    rw [List.foldl_cons, sizes, List.length_cons]
    omega

theorem parse_charted (grammar : Grammar) (start : Nat) (tokens : List Token) :
    Charted start (tokens.map Token.id) (parse grammar start tokens).columns ∧
      (parse grammar start tokens).columns.size = tokens.length + 1 := by
  have firstStage : Charted start (tokens.map Token.id) #[first grammar start] := by
    have empty : Charted start (tokens.map Token.id) (#[] : Array (Column grammar)) := by
      intro position column placed
      simp at placed
    exact empty.push (stage_first grammar start _)
  have single : (#[first grammar start] : Array (Column grammar)).size = 0 + 1 := rfl
  obtain ⟨charts, size⟩ := foldl_extend_charted tokens firstStage single rfl
  refine ⟨charts, ?_⟩
  rw [parse, size]
  omega

/-- Every link of a chart is the last match of an item. -/
theorem exists_lastMatch {tokens : List Token} {id : NodeId} {link : Link}
    (linked : link ∈ (parse grammar start tokens).links id) :
    ∃ item previous element, itemAt? (parse grammar start tokens).columns id = some item ∧
      LastMatch (tokens.map Token.id) (parse grammar start tokens).columns id.position item link
        previous element := by
  obtain ⟨column, node, inChart, placed, member⟩ := (mem_links _ id link).mp linked
  obtain ⟨previous, element, last⟩ :=
    (parse_charted grammar start tokens).1.reached inChart placed member
  exact ⟨node.item, previous, element, itemAt?_eq_some_iff.mpr ⟨column, node, inChart, placed, rfl⟩, last⟩

end Chart

end Typeahead
