import Typeahead.Proofs.Chart.Capacity

/-!
What closing a column brings about. Each node gets its turn once, and when all have had it the column is
closed under prediction, skipping and completion, whatever the order in which the nodes came.
-/

namespace Typeahead

namespace Column

variable {grammar : Grammar} {column later : Column grammar} {earlier : Array (Column grammar)}
  {ids : List TokenId} {start slot : Nat} {item : Item} {links : List Link} {node : Node}

def AllValid (start : Nat) (ids : List TokenId) (columns : Array (Column grammar)) : Prop :=
  ∀ (id : NodeId) (item : Item), itemAt? columns id = some item →
    item.Valid grammar start ids id.position

theorem itemAt?_eq_some_iff {columns : Array (Column grammar)} {id : NodeId} :
    itemAt? columns id = some item ↔ ∃ (column : Column grammar) (node : Node),
      columns[id.position]? = some column ∧ column.nodes[id.slot]? = some node ∧ node.item = item := by
  simp only [itemAt?, Option.bind_eq_some_iff, Option.map_eq_some_iff]
  constructor
  · intro given
    obtain ⟨column, found, node, placed, same⟩ := given
    exact ⟨column, node, found, placed, same⟩
  · intro given
    obtain ⟨column, node, found, placed, same⟩ := given
    exact ⟨column, found, node, placed, same⟩

theorem itemAt?_of_node (earlier : Array (Column grammar)) (placed : column.nodes[slot]? = some node) :
    itemAt? (earlier.push column) ⟨earlier.size, slot⟩ = some node.item := by
  rw [itemAt?_push_last, placed, Option.map_some]

theorem node_of_itemAt? {id : NodeId} (found : itemAt? (earlier.push column) id = some item)
    (here : id.position = earlier.size) : ∃ (slot : Nat) (node : Node),
      id = ⟨earlier.size, slot⟩ ∧ column.nodes[slot]? = some node ∧ node.item = item := by
  obtain ⟨position, slot⟩ := id
  dsimp only at here
  subst here
  rw [itemAt?_push_last] at found
  obtain ⟨node, placed, same⟩ := Option.map_eq_some_iff.mp found
  exact ⟨slot, node, rfl, placed, same⟩

theorem AllValid.push (all : AllValid start ids earlier) (sound : column.Sound start ids earlier) :
    AllValid start ids (earlier.push column) := by
  intro id item found
  by_cases last : id.position = earlier.size
  · obtain ⟨slot, node, rfl, placed, rfl⟩ := node_of_itemAt? found last
    exact sound.valid slot node placed
  · apply all
    simpa only [itemAt?, Array.getElem?_push, last, if_false] using found

/-- Behind a step the nodes at old places have the items that they had. -/
theorem Extends.itemAt?_eq (extended : later.Extends column) {id : NodeId}
    (old : id.position = earlier.size → id.slot < column.nodes.size) :
    Column.itemAt? (earlier.push later) id = Column.itemAt? (earlier.push column) id := by
  obtain ⟨position, slot⟩ := id
  by_cases last : position = earlier.size
  · subst last
    have placed := Array.getElem?_eq_getElem (old rfl)
    obtain ⟨node, placedLater, same, _⟩ := extended _ _ placed
    rw [itemAt?_of_node _ placed, itemAt?_of_node _ placedLater, same]
  · simp only [Column.itemAt?, Array.getElem?_push, last, if_false]

theorem addLinks_nil (column : Column grammar) (slot : Nat) : column.addLinks slot [] = column := by
  have nodes : column.nodes.modify slot (·.addLinks []) = column.nodes := by
    apply Array.ext_getElem?
    intro place
    rw [Array.getElem?_modify]
    split
    · simp [Node.addLinks_nil]
    · rfl
  cases column
  simpa only [addLinks, mk.injEq, and_true] using nodes

/-- A match that leads from a node to itself adds nothing. -/
theorem add_loop (placed : column.nodes[slot]? = some node) {position : Nat} {link : Link}
    (loop : link.previous = ⟨position, slot⟩) : column.add position node.item [link] = (column, []) := by
  have known := slot_of_node placed rfl
  have nothing : node.missing ⟨position, slot⟩ [link] = [] := by
    simp [Node.missing, loop]
  unfold add
  split
  · rename_i absent
    rw [known] at absent
    cases absent
  · rename_i slot' found
    rw [known] at found
    cases found
    simp only [placed, nothing, addLinks_nil]

theorem insert_loop (placed : column.nodes[slot]? = some node) {position : Nat} {link : Link}
    (loop : link.previous = ⟨position, slot⟩) : column.insert position node.item [link] = column := by
  have unchanged := add_loop placed loop
  unfold insert
  cases (grammar.elements node.item.rule node.item.alternative).drop node.item.index with
  | nil => rw [insertBefore, unchanged]
  | cons element rest => simp [insertBefore, unchanged]

/-- Where steps keep what they promise, all promises hold after all steps. -/
theorem foldl_grows {α : Type} (xs : List α) (step : Column grammar → α → Column grammar)
    (promise : α → Column grammar → Prop) (sound : column.Sound start ids earlier)
    (keeps : ∀ x later latest, latest.Extends later → promise x later → promise x latest)
    (each : ∀ later, Grows start ids earlier column later → ∀ x ∈ xs,
      Grows start ids earlier later (step later x) ∧ promise x (step later x)) :
    Grows start ids earlier column (xs.foldl step column) ∧
      ∀ x ∈ xs, promise x (xs.foldl step column) := by
  induction xs generalizing column with
  | nil => exact ⟨.refl sound, by simp⟩
  | cons x xs ih =>
    obtain ⟨grows, promised⟩ := each column (.refl sound) x List.mem_cons_self
    obtain ⟨grown, others⟩ := ih grows.sound fun later after y member =>
      each later (grows.trans after) y (List.mem_cons_of_mem x member)
    refine ⟨grows.trans grown, fun y member => ?_⟩
    rcases List.mem_cons.mp member with rfl | member
    · exact keeps y _ _ grown.kept promised
    · exact others y member

/-- An item is past a rule that a node has completed, with the match as a link unless that led from
the item to itself. -/
def Advanced (position : Nat) (waiterId : NodeId) (waiter : Item) (completed : NodeId)
    (column : Column grammar) : Prop :=
  column.Contains waiter.advanced [] ∧
    ((waiterId.position = position → waiter.advanced ≠ waiter) →
      column.Contains waiter.advanced [⟨waiterId, waiter.index, .rule completed⟩])

theorem Advanced.mono {position : Nat} {waiterId completed : NodeId}
    (advanced : column.Advanced position waiterId item completed) (extended : later.Extends column) :
    later.Advanced position waiterId item completed :=
  ⟨advanced.1.mono extended, fun apart => (advanced.2 apart).mono extended⟩

/-- An item that is moved past a completed rule holds where the rule ends. -/
theorem valid_advanced (all : AllValid start ids earlier) (sound : column.Sound start ids earlier)
    {waiterId : NodeId} {waiter done : Item}
    (found : itemAt? (earlier.push column) waiterId = some waiter)
    (awaits : waiter.awaited? grammar = some done.rule)
    (completed : itemAt? (earlier.push column) ⟨earlier.size, slot⟩ = some done)
    (complete : done.isComplete grammar = true) (origin : done.origin = waiterId.position) :
    waiter.advanced.Valid grammar start ids earlier.size := by
  have allValid := all.push sound
  have validDone : done.Valid grammar start ids earlier.size := allValid _ _ completed
  have validWaiter : waiter.Valid grammar start ids done.origin := origin ▸ allValid _ _ found
  exact validWaiter.advanced_rule awaits validDone complete rfl

/-- The match of a completed rule is a last match of the item that it moves on, unless that stays where it is. -/
theorem reachedBy_advanced (all : AllValid start ids earlier) (sound : column.Sound start ids earlier)
    {waiterId : NodeId} {waiter done : Item}
    (found : itemAt? (earlier.push column) waiterId = some waiter)
    (awaits : waiter.awaited? grammar = some done.rule)
    (completed : itemAt? (earlier.push column) ⟨earlier.size, slot⟩ = some done)
    (complete : done.isComplete grammar = true) (origin : done.origin = waiterId.position)
    (apart : ¬ (waiterId.position = earlier.size ∧ waiter.advanced = waiter)) :
    ReachedBy ids (earlier.push column) earlier.size waiter.advanced
      ⟨waiterId, waiter.index, .rule ⟨earlier.size, slot⟩⟩ := by
  have validDone : done.Valid grammar start ids earlier.size := all.push sound _ _ completed
  obtain ⟨element, expects, refers⟩ := Option.bind_eq_some_iff.mp awaits
  exact ⟨waiter, element, {
    found := found
    expects := expects
    index := rfl
    before := origin ▸ validDone.ordered
    skips := .refl
    consumes := fun here same => apart ⟨here, same⟩
    child := ⟨rfl, done, completed, complete, refers, origin⟩ }⟩

theorem advance_grows (all : AllValid start ids earlier) (sound : column.Sound start ids earlier)
    {waiterId : NodeId} {waiter done : Item}
    (found : itemAt? (earlier.push column) waiterId = some waiter)
    (awaits : waiter.awaited? grammar = some done.rule)
    (completed : itemAt? (earlier.push column) ⟨earlier.size, slot⟩ = some done)
    (complete : done.isComplete grammar = true) (origin : done.origin = waiterId.position) :
    Grows start ids earlier column (column.advance waiterId waiter ⟨earlier.size, slot⟩) ∧
      (column.advance waiterId waiter ⟨earlier.size, slot⟩).Advanced earlier.size waiterId waiter
        ⟨earlier.size, slot⟩ := by
  have advanced := valid_advanced all sound found awaits completed complete origin
  have reachedApart := reachedBy_advanced all sound found awaits completed complete origin
  unfold advance
  by_cases loop : waiterId.position = earlier.size ∧ waiter.advanced = waiter
  · obtain ⟨here, same⟩ := loop
    obtain ⟨place, node, rfl, placed, rfl⟩ := node_of_itemAt? found here
    rw [same, insert_loop placed rfl]
    refine ⟨.refl sound, ⟨place, node, placed, same.symm, List.nil_subset _⟩, fun apart => ?_⟩
    exact (apart rfl same).elim
  · obtain ⟨grows, contains⟩ := insert_grows sound advanced
      (List.forall_mem_singleton.mpr (reachedApart loop))
    refine ⟨grows, ?_, fun _ => contains⟩
    obtain ⟨place, node, placed, same, _⟩ := contains
    exact ⟨place, node, placed, same, List.nil_subset _⟩

theorem mem_awaiting (column : Column grammar) (rule place : Nat) :
    place ∈ column.awaiting rule ↔
      ∃ node, column.nodes[place]? = some node ∧ node.item.awaited? grammar = some rule := by
  simp only [awaiting, column.waiting_eq, List.mem_map, List.mem_filter, List.mem_filterMap,
    List.mem_zipIdx_iff_getElem?, Option.map_eq_some_iff, beq_iff_eq, Prod.exists]
  constructor
  · intro given
    obtain ⟨target, index, ⟨⟨item, at', placed, rule', awaits, same⟩, wanted⟩, here⟩ := given
    cases same
    subst wanted here
    rw [List.getElem?_map, Array.getElem?_toList] at placed
    obtain ⟨node, inColumn, rfl⟩ := Option.map_eq_some_iff.mp placed
    exact ⟨node, inColumn, awaits⟩
  · intro given
    obtain ⟨node, placed, awaits⟩ := given
    have listed : (column.nodes.toList.map Node.item)[place]? = some node.item := by
      rw [List.getElem?_map, Array.getElem?_toList, placed, Option.map_some]
    exact ⟨rule, place, ⟨⟨node.item, place, listed, rule, awaits, rfl⟩, rfl⟩, rfl⟩

theorem getElem?_push_of_le {position : Nat} (within : position ≤ earlier.size)
    (column : Column grammar) :
    (earlier.push column)[position]? = some (column.among earlier position) := by
  unfold among
  rw [Array.getElem?_push]
  split
  · rename_i last
    simp [last]
  · rename_i before
    have inside : position < earlier.size := by omega
    simp [inside]

theorem mem_waitersOf {done : Item} (ordered : done.origin ≤ earlier.size) (waiter : Item)
    (place : Nat) : (waiter, place) ∈ column.waitersOf earlier done ↔
      itemAt? (earlier.push column) ⟨done.origin, place⟩ = some waiter ∧
        waiter.awaited? grammar = some done.rule := by
  simp only [waitersOf, List.mem_filterMap, mem_awaiting, Option.map_eq_some_iff, Prod.mk.injEq,
    itemAt?, getElem?_push_of_le ordered, Option.bind_some]
  constructor
  · intro given
    obtain ⟨place', ⟨node, placed, awaits⟩, same, placedSame, rfl, rfl⟩ := given
    rw [placed] at placedSame
    cases placedSame
    exact ⟨⟨node, placed, rfl⟩, awaits⟩
  · intro given
    obtain ⟨⟨node, placed, rfl⟩, awaits⟩ := given
    exact ⟨place, ⟨node, placed, awaits⟩, node, placed, rfl, rfl⟩

theorem complete_grows (all : AllValid start ids earlier) (sound : column.Sound start ids earlier)
    (placed : column.nodes[slot]? = some node) (complete : node.item.isComplete grammar = true) :
    Grows start ids earlier column (column.complete earlier slot node.item) ∧
      ∀ place waiter, itemAt? (earlier.push column) ⟨node.item.origin, place⟩ = some waiter →
        waiter.awaited? grammar = some node.item.rule →
          (column.complete earlier slot node.item).Advanced earlier.size ⟨node.item.origin, place⟩
            waiter ⟨earlier.size, slot⟩ := by
  have ordered := (sound.valid slot node placed).ordered
  obtain ⟨grows, promised⟩ := foldl_grows (column.waitersOf earlier node.item)
    (fun column waiter =>
      column.advance ⟨node.item.origin, waiter.2⟩ waiter.1 ⟨earlier.size, slot⟩)
    (fun waiter column =>
      column.Advanced earlier.size ⟨node.item.origin, waiter.2⟩ waiter.1 ⟨earlier.size, slot⟩)
    sound (fun _ _ _ extended advanced => advanced.mono extended) (by
      intro later grown entry member
      obtain ⟨waiter, place⟩ := entry
      obtain ⟨found, awaits⟩ := (mem_waitersOf ordered waiter place).mp member
      exact advance_grows all grown.sound (grown.kept.itemAt? found) awaits
        (grown.kept.itemAt? (itemAt?_of_node earlier placed)) complete rfl)
  refine ⟨grows, fun place waiter found awaits => ?_⟩
  exact promised (waiter, place) ((mem_waitersOf ordered waiter place).mpr ⟨found, awaits⟩)

theorem mem_emptyBefore (column : Column grammar) (slot target place : Nat) :
    place ∈ column.emptyBefore earlier slot target ↔ place < slot ∧
      ∃ done, itemAt? (earlier.push column) ⟨earlier.size, place⟩ = some done ∧
        done.rule = target ∧ done.origin = earlier.size ∧ done.isComplete grammar = true := by
  simp only [emptyBefore, List.mem_filter, List.mem_range, Option.any_eq_true, Bool.and_eq_true,
    beq_iff_eq, itemAt?_push_last, Option.map_eq_some_iff, and_assoc]
  refine and_congr_right fun _ => ?_
  constructor
  · intro given
    obtain ⟨node, placed, facts⟩ := given
    exact ⟨node.item, ⟨node, placed, rfl⟩, facts⟩
  · intro given
    obtain ⟨_, ⟨node, placed, rfl⟩, facts⟩ := given
    exact ⟨node, placed, facts⟩

/-- Prediction begins the awaited rule, and moves the item past what nodes before it have completed
of that rule without a token. -/
theorem predict_grows (all : AllValid start ids earlier) (sound : column.Sound start ids earlier)
    (placed : column.nodes[slot]? = some node) :
    Grows start ids earlier column (column.predict earlier slot node.item) ∧
      ∀ target, node.item.awaited? grammar = some target →
        (∀ alternative, alternative < (grammar.alternatives target).length →
          (column.predict earlier slot node.item).Contains
            (.start target alternative earlier.size) []) ∧
        ∀ place done, place < slot →
          itemAt? (earlier.push column) ⟨earlier.size, place⟩ = some done → done.rule = target →
          done.origin = earlier.size → done.isComplete grammar = true →
            (column.predict earlier slot node.item).Advanced earlier.size ⟨earlier.size, slot⟩
              node.item ⟨earlier.size, place⟩ := by
  have valid := sound.valid slot node placed
  cases awaits : node.item.awaited? grammar with
  | none =>
    rw [predict, awaits]
    exact ⟨.refl sound, fun _ none => by cases none⟩
  | some target =>
    simp only [predict, awaits]
    obtain ⟨grows, begun⟩ := foldl_grows (List.range (grammar.alternatives target).length)
      (fun column alternative =>
        column.insert earlier.size (.start target alternative earlier.size) [])
      (fun alternative column =>
        column.Contains (.start target alternative earlier.size) [])
      sound (fun _ _ _ extended contained => contained.mono extended) (by
        intro later grown alternative member
        have begins := Item.Valid.of_begins (valid.awaited awaits) (List.mem_range.mp member)
          valid.within
        exact insert_grows grown.sound begins (by simp))
    generalize (List.range (grammar.alternatives target).length).foldl
      (fun column alternative =>
        column.insert earlier.size (.start target alternative earlier.size) []) column = predicted
      at grows begun ⊢
    have here := grows.kept.itemAt? (itemAt?_of_node earlier placed)
    obtain ⟨grown, moved⟩ := foldl_grows (predicted.emptyBefore earlier slot target)
      (fun column place =>
        column.advance ⟨earlier.size, slot⟩ node.item ⟨earlier.size, place⟩)
      (fun place column =>
        column.Advanced earlier.size ⟨earlier.size, slot⟩ node.item ⟨earlier.size, place⟩)
      grows.sound (fun _ _ _ extended advanced => advanced.mono extended) (by
        intro later grown place member
        obtain ⟨_, done, found, rfl, origin, complete⟩ := (mem_emptyBefore _ _ _ _).mp member
        exact advance_grows all grown.sound (grown.kept.itemAt? here) awaits
          (grown.kept.itemAt? found) complete origin)
    refine ⟨grows.trans grown, fun target' same => ?_⟩
    cases same
    constructor
    · intro alternative declared
      exact (begun alternative (List.mem_range.mpr declared)).mono grown.kept
    · intro place done before found rule origin complete
      exact moved place ((mem_emptyBefore _ _ _ _).mpr
        ⟨before, done, grows.kept.itemAt? found, rule, origin, complete⟩)

theorem skip_of_canSkip (skippable : item.canSkip grammar = true) (column : Column grammar) :
    column.skip earlier slot item =
      column.insert earlier.size item.skipped ((column.nodes[slot]?.map Node.links).getD []) := by
  obtain ⟨element, here, reason⟩ := (Option.any_eq_true _ _).mp skippable
  simp only [skip, here, reason, if_true]

theorem skip_of_not_canSkip (stuck : ¬ item.canSkip grammar = true) (column : Column grammar) :
    column.skip earlier slot item = column := by
  unfold skip
  split
  · rfl
  · rename_i element here
    refine if_neg fun reason => stuck ?_
    rw [Item.canSkip, here, Option.any_some, reason]

theorem skip_grows (sound : column.Sound start ids earlier)
    (placed : column.nodes[slot]? = some node) :
    Grows start ids earlier column (column.skip earlier slot node.item) ∧
      (column.skip earlier slot node.item).SkipClosed slot := by
  by_cases skippable : node.item.canSkip grammar = true
  · obtain ⟨grows, contains, frame⟩ := insertBefore_grows _ rfl sound
      ((sound.valid slot node placed).skipped skippable)
      fun link member => (sound.reached slot node link placed member).skipped skippable
    rw [skip_of_canSkip skippable, placed, Option.map_some, Option.getD_some]
    refine ⟨grows, fun later placedLater _ => ?_⟩
    have same := frame slot node placed (Nat.lt_succ_self _)
    rw [insert, same] at placedLater
    cases placedLater
    exact contains
  · rw [skip_of_not_canSkip skippable]
    refine ⟨.refl sound, fun other placedOther skips => ?_⟩
    rw [placed] at placedOther
    cases placedOther
    exact (skippable skips).elim

/-- The nodes before a place have had their turn: what they predict, skip to and complete is there. A
completion without a token also answers the items that had their turn before or after it. -/
structure Settled (earlier : Array (Column grammar)) (count : Nat) (column : Column grammar) :
    Prop where
  predicted : ∀ slot item target alternative, slot < count →
    itemAt? (earlier.push column) ⟨earlier.size, slot⟩ = some item →
    item.awaited? grammar = some target → alternative < (grammar.alternatives target).length →
      column.Contains (.start target alternative earlier.size) []
  skipped : ∀ slot, slot < count → column.SkipClosed slot
  completed : ∀ slot done place waiter, slot < count →
    itemAt? (earlier.push column) ⟨earlier.size, slot⟩ = some done →
    done.isComplete grammar = true →
    itemAt? (earlier.push column) ⟨done.origin, place⟩ = some waiter →
    waiter.awaited? grammar = some done.rule → (done.origin = earlier.size → place < count) →
      column.Advanced earlier.size ⟨done.origin, place⟩ waiter ⟨earlier.size, slot⟩

theorem Settled.zero (earlier : Array (Column grammar)) (column : Column grammar) :
    Settled earlier 0 column where
  predicted _ _ _ _ below := (Nat.not_lt_zero _ below).elim
  skipped _ below := (Nat.not_lt_zero _ below).elim
  completed _ _ _ _ below := (Nat.not_lt_zero _ below).elim

theorem Settled.mono {count : Nat} (settled : Settled earlier count column)
    (grows : Grows start ids earlier column later) (within : count ≤ column.nodes.size) :
    Settled earlier count later where
  predicted slot item target alternative below found awaits declared := by
    rw [grows.kept.itemAt?_eq fun _ => Nat.lt_of_lt_of_le below within] at found
    exact (settled.predicted slot item target alternative below found awaits declared).mono grows.kept
  skipped slot below :=
    grows.closed slot (Nat.lt_of_lt_of_le below within) (settled.skipped slot below)
  completed slot done place waiter below found complete foundWaiter awaits settledWaiter := by
    rw [grows.kept.itemAt?_eq fun _ => Nat.lt_of_lt_of_le below within] at found
    rw [grows.kept.itemAt?_eq fun here => Nat.lt_of_lt_of_le (settledWaiter here) within]
      at foundWaiter
    exact (settled.completed slot done place waiter below found complete foundWaiter awaits
      settledWaiter).mono grows.kept

/-- One more node is settled by its own turn, where what it awaits may have been completed before. -/
theorem Settled.succ (settled : Settled earlier slot column)
    (here : itemAt? (earlier.push column) ⟨earlier.size, slot⟩ = some item)
    (predicted : ∀ target alternative, item.awaited? grammar = some target →
      alternative < (grammar.alternatives target).length →
        column.Contains (.start target alternative earlier.size) [])
    (closed : column.SkipClosed slot)
    (answered : ∀ before done, before < slot →
      itemAt? (earlier.push column) ⟨earlier.size, before⟩ = some done →
      done.isComplete grammar = true → done.origin = earlier.size →
      item.awaited? grammar = some done.rule →
        column.Advanced earlier.size ⟨earlier.size, slot⟩ item ⟨earlier.size, before⟩)
    (completed : item.isComplete grammar = true → ∀ place waiter,
      itemAt? (earlier.push column) ⟨item.origin, place⟩ = some waiter →
      waiter.awaited? grammar = some item.rule → (item.origin = earlier.size → place ≤ slot) →
        column.Advanced earlier.size ⟨item.origin, place⟩ waiter ⟨earlier.size, slot⟩) :
    Settled earlier (slot + 1) column where
  predicted slot' item' target alternative below found awaits declared := by
    rcases Nat.lt_succ_iff_lt_or_eq.mp below with before | rfl
    · exact settled.predicted slot' item' target alternative before found awaits declared
    · rw [here] at found
      cases found
      exact predicted target alternative awaits declared
  skipped slot' below := by
    rcases Nat.lt_succ_iff_lt_or_eq.mp below with before | rfl
    · exact settled.skipped slot' before
    · exact closed
  completed slot' done place waiter below found complete foundWaiter awaits turned := by
    rcases Nat.lt_succ_iff_lt_or_eq.mp below with before | rfl
    · -- the node that awaits may be the one whose turn it is now
      by_cases itself : done.origin = earlier.size ∧ place = slot
      · obtain ⟨origin, rfl⟩ := itself
        rw [origin, here] at foundWaiter
        cases foundWaiter
        rw [origin]
        exact answered slot' done before found complete origin awaits
      · refine settled.completed slot' done place waiter before found complete foundWaiter awaits
          fun origin => ?_
        rcases Nat.lt_succ_iff_lt_or_eq.mp (turned origin) with beforeWaiter | last
        · exact beforeWaiter
        · exact (itself ⟨origin, last⟩).elim
    · rw [here] at found
      cases found
      exact completed complete place waiter foundWaiter awaits fun origin =>
        Nat.le_of_lt_succ (turned origin)

theorem settled_complete (all : AllValid start ids earlier) (sound : column.Sound start ids earlier)
    (settled : Settled earlier slot column) (placed : column.nodes[slot]? = some node)
    (complete : node.item.isComplete grammar = true) :
    Grows start ids earlier column (column.complete earlier slot node.item) ∧
      Settled earlier (slot + 1) (column.complete earlier slot node.item) := by
  obtain ⟨grows, advanced⟩ := complete_grows all sound placed complete
  have inside := (Array.getElem?_eq_some_iff.mp placed).1
  have here := grows.kept.itemAt? (itemAt?_of_node earlier placed)
  have awaitsNone := Item.awaited?_of_complete complete
  refine ⟨grows, (settled.mono grows (Nat.le_of_lt inside)).succ here ?_ ?_ ?_ ?_⟩
  · intro target alternative awaits
    rw [awaitsNone] at awaits
    cases awaits
  · intro later placedLater skippable
    rw [itemAt?_of_node earlier placedLater] at here
    rw [Option.some.inj here, Item.canSkip_of_complete complete] at skippable
    cases skippable
  · intro before done _ _ _ _ awaits
    rw [awaitsNone] at awaits
    cases awaits
  · intro _ place waiter found awaits turned
    rw [grows.kept.itemAt?_eq fun origin => Nat.lt_of_le_of_lt (turned origin) inside] at found
    exact advanced place waiter found awaits

theorem settled_incomplete (all : AllValid start ids earlier) (sound : column.Sound start ids earlier)
    (settled : Settled earlier slot column) (placed : column.nodes[slot]? = some node)
    (incomplete : node.item.isComplete grammar = false) :
    Grows start ids earlier column
        ((column.predict earlier slot node.item).skip earlier slot node.item) ∧
      Settled earlier (slot + 1)
        ((column.predict earlier slot node.item).skip earlier slot node.item) := by
  obtain ⟨growsFirst, predicted⟩ := predict_grows all sound placed
  obtain ⟨between, placedBetween, same, _⟩ := growsFirst.kept slot node placed
  have skip := skip_grows growsFirst.sound placedBetween
  rw [same] at skip
  obtain ⟨growsSecond, closed⟩ := skip
  have grows := growsFirst.trans growsSecond
  have inside := (Array.getElem?_eq_some_iff.mp placed).1
  have here := grows.kept.itemAt? (itemAt?_of_node earlier placed)
  refine ⟨grows, (settled.mono grows (Nat.le_of_lt inside)).succ here ?_ closed ?_ ?_⟩
  · intro target alternative awaits declared
    exact ((predicted target awaits).1 alternative declared).mono growsSecond.kept
  · intro before done earlierTurn found complete origin awaits
    rw [grows.kept.itemAt?_eq fun _ => Nat.lt_trans earlierTurn inside] at found
    exact ((predicted done.rule awaits).2 before done earlierTurn found rfl origin complete).mono
      growsSecond.kept
  · intro complete
    rw [incomplete] at complete
    cases complete

theorem step_settled (all : AllValid start ids earlier) (sound : column.Sound start ids earlier)
    (settled : Settled earlier slot column) (inside : slot < column.nodes.size) :
    Grows start ids earlier column (column.step earlier slot) ∧
      Settled earlier (slot + 1) (column.step earlier slot) := by
  have placed := Array.getElem?_eq_getElem inside
  simp only [step, placed]
  split
  · rename_i complete
    exact settled_complete all sound settled placed complete
  · rename_i incomplete
    exact settled_incomplete all sound settled placed (by simpa using incomplete)

/-- Closing ends with all nodes settled, since there are fewer than the turns that it may take. -/
theorem closeFrom_settled (fuel : Nat) (all : AllValid start ids earlier)
    (sound : column.Sound start ids earlier) (settled : Settled earlier slot column)
    (within : slot ≤ column.nodes.size)
    (enough : (earlier.size + 1) * capacity grammar ≤ slot + fuel) :
    Grows start ids earlier column (column.closeFrom earlier fuel slot) ∧
      Settled earlier (column.closeFrom earlier fuel slot).nodes.size
        (column.closeFrom earlier fuel slot) := by
  induction fuel generalizing slot column with
  | zero =>
    have bound := sound.size_le
    have ended : slot = column.nodes.size := by omega
    subst ended
    exact ⟨.refl sound, settled⟩
  | succ fuel ih =>
    rw [closeFrom]
    split
    · rename_i inside
      obtain ⟨grows, settledNext⟩ := step_settled all sound settled inside
      obtain ⟨grown, settledAll⟩ := ih grows.sound settledNext
        (Nat.le_trans inside grows.kept.size_le) (by omega)
      exact ⟨grows.trans grown, settledAll⟩
    · rename_i outside
      have ended : slot = column.nodes.size := by omega
      subst ended
      exact ⟨.refl sound, settled⟩

theorem close_settled (all : AllValid start ids earlier) (sound : column.Sound start ids earlier) :
    Grows start ids earlier column (column.close earlier) ∧
      Settled earlier (column.close earlier).nodes.size (column.close earlier) :=
  closeFrom_settled _ all sound (.zero earlier column) (Nat.zero_le _) (Nat.zero_add _).ge

end Column

end Typeahead
