import Typeahead.Chart.Basic
import Typeahead.Proofs.Chart.Item

/-!
What an insertion does to a column. Nodes stay, links are only added, and links that are new to an old
node reach all items that it may be skipped to.
-/

namespace Typeahead

theorem mem_insertByKey {α κ : Type} [LT κ] [DecidableLT κ] (key : α → κ) (x y : α) (xs : List α) :
    y ∈ insertByKey key x xs ↔ y = x ∨ y ∈ xs := by
  rw [(insertByKey_perm key x xs).mem_iff, List.mem_cons]

namespace Node

theorem mem_addLinks (node : Node) (links : List Link) (link : Link) :
    link ∈ (node.addLinks links).links ↔ link ∈ links ∨ link ∈ node.links := by
  unfold addLinks
  induction links with
  | nil => simp
  | cons first links ih =>
    simp only [List.foldr_cons, mem_insertByKey, List.mem_cons, or_assoc]
    exact or_congr_right ih

theorem addLinks_nil (node : Node) : node.addLinks [] = node := rfl

theorem item_addLinks (node : Node) (links : List Link) : (node.addLinks links).item = node.item := rfl

theorem mem_missing (node : Node) (id : NodeId) (links : List Link) (link : Link) :
    link ∈ node.missing id links ↔ link ∈ links ∧ link.previous ≠ id ∧ link ∉ node.links := by
  simp [missing]

end Node

namespace Column

variable {grammar : Grammar}

def itemAt? (columns : Array (Column grammar)) (id : NodeId) : Option Item :=
  (columns[id.position]?).bind fun column => (column.nodes[id.slot]?).map Node.item

/-- What a child matches: a token that a terminal accepts, or a rule from where a complete item began. -/
def MatchesChild (ids : List TokenId) (columns : Array (Column grammar)) (symbol : Symbol)
    (start stop : Nat) : Child → Prop
  | .token index => index = start ∧ stop = start + 1 ∧ symbol.isTerminal = true ∧
      ∃ id, ids[start]? = some id ∧ symbol.accepts id = true
  | .rule completed => completed.position = stop ∧ ∃ done, itemAt? columns completed = some done ∧
      done.isComplete grammar = true ∧ symbol.target? = some done.rule ∧ done.origin = start

/-- A link says how an item was last reached by a match: from an earlier item, which expected the
element that the child matches, and which once past it could be skipped to the item. A match that leads
from an item to itself at one position is none. -/
structure LastMatch (ids : List TokenId) (columns : Array (Column grammar)) (position : Nat)
    (item : Item) (link : Link) (previous : Item) (element : Element) : Prop where
  found : itemAt? columns link.previous = some previous
  expects : previous.next? grammar = some element
  index : link.index = previous.index
  before : link.previous.position ≤ position
  skips : previous.advanced.SkipsTo grammar item
  consumes : link.previous.position = position → previous.advanced ≠ previous
  child : MatchesChild ids columns element.symbol link.previous.position position link.child

def ReachedBy (ids : List TokenId) (columns : Array (Column grammar)) (position : Nat) (item : Item)
    (link : Link) : Prop :=
  ∃ previous element, LastMatch ids columns position item link previous element

/-- The nodes of a column are those of another one, in their places, with more links at most, and then
others. -/
def Extends (column earlier : Column grammar) : Prop :=
  ∀ (slot : Nat) (node : Node), earlier.nodes[slot]? = some node →
    ∃ later : Node, column.nodes[slot]? = some later ∧ later.item = node.item ∧ node.links ⊆ later.links

def Contains (column : Column grammar) (item : Item) (links : List Link) : Prop :=
  ∃ (slot : Nat) (node : Node), column.nodes[slot]? = some node ∧ node.item = item ∧ links ⊆ node.links

/-- The links of the node at a place have been passed on to its skipped item. -/
def SkipClosed (column : Column grammar) (slot : Nat) : Prop :=
  ∀ node : Node, column.nodes[slot]? = some node → node.item.canSkip grammar = true →
    column.Contains node.item.skipped node.links

variable {column later : Column grammar} {earlier : Array (Column grammar)} {ids : List TokenId}
  {start position slot : Nat} {item : Item} {links : List Link} {link : Link} {node : Node}

/-- A match that repeats an element takes a token. -/
theorem LastMatch.lt_of_matched {columns : Array (Column grammar)} {previous : Item} {element : Element}
    (last : LastMatch ids columns position item link previous element)
    (occurred : previous.matched = true) : link.previous.position < position := by
  refine Nat.lt_of_le_of_ne last.before fun here => last.consumes here ?_
  rw [Item.advanced, ← occurred]

theorem Extends.refl (column : Column grammar) : column.Extends column :=
  fun _ node placed => ⟨node, placed, rfl, List.Subset.refl _⟩

theorem Extends.trans {latest : Column grammar} (second : latest.Extends later)
    (first : later.Extends column) : latest.Extends column := by
  intro slot node placed
  obtain ⟨middle, inMiddle, sameItem, fewer⟩ := first slot node placed
  obtain ⟨last, inLast, sameLast, few⟩ := second slot middle inMiddle
  exact ⟨last, inLast, sameLast.trans sameItem, List.Subset.trans fewer few⟩

theorem Extends.size_le (extended : later.Extends column) :
    column.nodes.size ≤ later.nodes.size := by
  by_contra shorter
  have inside : later.nodes.size < column.nodes.size := by omega
  obtain ⟨node, placed, _⟩ := extended _ _ (Array.getElem?_eq_getElem inside)
  simp at placed

theorem Contains.mono (contained : column.Contains item links) (extended : later.Extends column) :
    later.Contains item links := by
  obtain ⟨slot, node, placed, same, present⟩ := contained
  obtain ⟨node', placed', same', more⟩ := extended slot node placed
  exact ⟨slot, node', placed', same'.trans same, List.Subset.trans present more⟩

theorem node_of_slot (known : column.slots[item]? = some slot) :
    ∃ node : Node, column.nodes[slot]? = some node ∧ node.item = item :=
  Option.map_eq_some_iff.mp ((column.slots_iff item slot).mp known)

theorem slot_of_node (placed : column.nodes[slot]? = some node) (same : node.item = item) :
    column.slots[item]? = some slot := by
  rw [column.slots_iff, placed, Option.map_some, same]

theorem slot_unique {left right : Nat} {first second : Node}
    (placedFirst : column.nodes[left]? = some first)
    (placedSecond : column.nodes[right]? = some second) (same : first.item = second.item) :
    left = right := by
  have known := slot_of_node placedFirst same
  rw [slot_of_node placedSecond rfl] at known
  exact (Option.some.inj known).symm

theorem Contains.links_subset (contained : column.Contains item links)
    (placed : column.nodes[slot]? = some node) (same : node.item = item) : links ⊆ node.links := by
  obtain ⟨slot', node', placed', same', present⟩ := contained
  have sameSlot := slot_unique placed placed' (same.trans same'.symm)
  subst sameSlot
  rw [placed] at placed'
  cases placed'
  exact present

theorem itemAt?_push_last (earlier : Array (Column grammar)) (column : Column grammar) (slot : Nat) :
    itemAt? (earlier.push column) ⟨earlier.size, slot⟩ = (column.nodes[slot]?).map Node.item := by
  simp [itemAt?]

theorem itemAt?_push_of_lt {id : NodeId} (before : id.position < earlier.size)
    (column : Column grammar) : itemAt? (earlier.push column) id = itemAt? earlier id := by
  simp [itemAt?, Array.getElem?_push, Nat.ne_of_lt before]

theorem Extends.itemAt? (extended : later.Extends column) {id : NodeId}
    (found : itemAt? (earlier.push column) id = some item) :
    Column.itemAt? (earlier.push later) id = some item := by
  obtain ⟨position, slot⟩ := id
  by_cases last : position = earlier.size
  · subst last
    rw [itemAt?_push_last] at found ⊢
    obtain ⟨node, placed, same⟩ := Option.map_eq_some_iff.mp found
    obtain ⟨node', placed', same', _⟩ := extended slot node placed
    rw [placed', Option.map_some, same', same]
  · simpa only [Column.itemAt?, Array.getElem?_push, last, if_false] using found

theorem LastMatch.mono {columns others : Array (Column grammar)} {previous : Item} {element : Element}
    (kept : ∀ id item, itemAt? columns id = some item → itemAt? others id = some item)
    (last : LastMatch ids columns position item link previous element) :
    LastMatch ids others position item link previous element where
  found := kept _ _ last.found
  expects := last.expects
  index := last.index
  before := last.before
  skips := last.skips
  consumes := last.consumes
  child := by
    have child := last.child
    cases matched : link.child with
    | token index =>
      rw [matched] at child
      exact child
    | rule completed =>
      rw [matched] at child
      obtain ⟨placed, done, found, complete⟩ := child
      exact ⟨placed, done, kept _ _ found, complete⟩

theorem ReachedBy.mono {columns others : Array (Column grammar)}
    (kept : ∀ id item, itemAt? columns id = some item → itemAt? others id = some item)
    (reached : ReachedBy ids columns position item link) : ReachedBy ids others position item link := by
  obtain ⟨previous, element, last⟩ := reached
  exact ⟨previous, element, last.mono kept⟩

theorem ReachedBy.skipped {columns : Array (Column grammar)}
    (reached : ReachedBy ids columns position item link) (skippable : item.canSkip grammar = true) :
    ReachedBy ids columns position item.skipped link := by
  obtain ⟨previous, element, last⟩ := reached
  exact ⟨previous, element, { last with skips := last.skips.tail ⟨skippable, rfl⟩ }⟩

/-- A match never leads from a node to itself. -/
theorem ReachedBy.previous_ne (reached : ReachedBy ids (earlier.push column) earlier.size item link)
    (placed : column.nodes[slot]? = some node) (same : node.item = item) :
    link.previous ≠ ⟨earlier.size, slot⟩ := by
  intro loop
  obtain ⟨previous, element, last⟩ := reached
  have found := last.found
  rw [loop, itemAt?_push_last, placed, Option.map_some, same] at found
  cases found
  have back := last.skips.eq_of_index (Nat.le_refl _)
  exact last.consumes (by rw [loop]) back.symm

/-- Each item of a column holds where it stands, and each link of a node is a last match of its item. -/
structure Sound (start : Nat) (ids : List TokenId) (earlier : Array (Column grammar))
    (column : Column grammar) : Prop where
  valid : ∀ (slot : Nat) (node : Node), column.nodes[slot]? = some node →
    node.item.Valid grammar start ids earlier.size
  reached : ∀ (slot : Nat) (node : Node) (link : Link), column.nodes[slot]? = some node →
    link ∈ node.links → ReachedBy ids (earlier.push column) earlier.size node.item link

theorem add_absent (absent : column.slots[item]? = none) (position : Nat) (links : List Link) :
    (column.add position item links).1.nodes = column.nodes.push ((Node.mk item []).addLinks links) ∧
      (column.add position item links).2 = [] := by
  unfold add
  split
  · exact ⟨rfl, rfl⟩
  · rename_i slot known
    rw [absent] at known
    cases known

theorem add_present (placed : column.nodes[slot]? = some node) (same : node.item = item)
    (position : Nat) (links : List Link) :
    (column.add position item links).1.nodes =
        column.nodes.modify slot (·.addLinks (node.missing ⟨position, slot⟩ links)) ∧
      (column.add position item links).2 = node.missing ⟨position, slot⟩ links := by
  have known := slot_of_node placed same
  unfold add
  split
  · rename_i absent
    rw [known] at absent
    cases absent
  · rename_i slot' found
    rw [known] at found
    cases found
    rw [placed]
    exact ⟨rfl, rfl⟩

theorem add_other (placed : column.nodes[slot]? = some node) (other : node.item ≠ item)
    (position : Nat) (links : List Link) :
    (column.add position item links).1.nodes[slot]? = some node := by
  cases known : column.slots[item]? with
  | none =>
    have inside := (Array.getElem?_eq_some_iff.mp placed).1
    rw [(add_absent known position links).1, Array.getElem?_push, if_neg (Nat.ne_of_lt inside), placed]
  | some slot' =>
    obtain ⟨node', placed', same'⟩ := node_of_slot known
    have apart : slot' ≠ slot := by
      intro sameSlot
      rw [sameSlot, placed] at placed'
      cases placed'
      exact other same'
    rw [(add_present placed' same' position links).1, Array.getElem?_modify, if_neg apart, placed]

theorem add_before (placed : column.nodes[slot]? = some node) (below : node.item.index < item.index)
    (position : Nat) (links : List Link) :
    (column.add position item links).1.nodes[slot]? = some node := by
  refine add_other placed (fun same => ?_) position links
  rw [same] at below
  exact Nat.lt_irrefl _ below

theorem add_own (placed : column.nodes[slot]? = some node) (same : node.item = item)
    (position : Nat) (links : List Link) :
    (column.add position item links).1.nodes[slot]? =
      some (node.addLinks (column.add position item links).2) := by
  have present := add_present placed same position links
  rw [present.1, present.2, Array.getElem?_modify, if_pos rfl, placed, Option.map_some]

/-- A node behind a column that an item is added to was there, or is the new node of the item. -/
theorem add_backward {later : Node}
    (placed : (column.add position item links).1.nodes[slot]? = some later) :
    (∃ node : Node, column.nodes[slot]? = some node ∧ later.item = node.item ∧
      ∀ link ∈ later.links, link ∈ node.links ∨ node.item = item ∧ link ∈ links) ∨
    later.item = item ∧ later.links ⊆ links := by
  cases known : column.slots[item]? with
  | none =>
    rw [(add_absent known position links).1, Array.getElem?_push] at placed
    split at placed
    · cases placed
      refine Or.inr ⟨rfl, fun link member => ?_⟩
      simpa [Node.mem_addLinks] using member
    · exact Or.inl ⟨later, placed, rfl, fun link member => Or.inl member⟩
  | some slot' =>
    obtain ⟨node', placed', same'⟩ := node_of_slot known
    rw [(add_present placed' same' position links).1, Array.getElem?_modify] at placed
    split at placed
    · rename_i sameSlot
      rw [← sameSlot, placed', Option.map_some] at placed
      cases placed
      refine Or.inl ⟨node', sameSlot ▸ placed', rfl, fun link member => ?_⟩
      rcases (Node.mem_addLinks _ _ _).mp member with added | old
      · exact Or.inr ⟨same', ((Node.mem_missing _ _ _ _).mp added).1⟩
      · exact Or.inl old
    · exact Or.inl ⟨later, placed, rfl, fun link member => Or.inl member⟩

theorem add_extends (column : Column grammar) (position : Nat) (item : Item) (links : List Link) :
    (column.add position item links).1.Extends column := by
  intro slot node placed
  by_cases same : node.item = item
  · refine ⟨_, add_own placed same position links, rfl, fun link member => ?_⟩
    exact (Node.mem_addLinks _ _ _).mpr (Or.inr member)
  · exact ⟨node, add_other placed same position links, rfl, List.Subset.refl _⟩

theorem added_subset (column : Column grammar) (position : Nat) (item : Item) (links : List Link) :
    (column.add position item links).2 ⊆ links := by
  cases known : column.slots[item]? with
  | none => simp [(add_absent known position links).2]
  | some slot =>
    obtain ⟨node, placed, same⟩ := node_of_slot known
    rw [(add_present placed same position links).2]
    exact fun link member => ((Node.mem_missing _ _ _ _).mp member).1

theorem add_contains
    (reached : ∀ link ∈ links, ReachedBy ids (earlier.push column) earlier.size item link) :
    (column.add earlier.size item links).1.Contains item links := by
  cases known : column.slots[item]? with
  | none =>
    refine ⟨column.nodes.size, (Node.mk item []).addLinks links, ?_, rfl, fun link member => ?_⟩
    · rw [(add_absent known earlier.size links).1, Array.getElem?_push, if_pos rfl]
    · exact (Node.mem_addLinks _ _ _).mpr (Or.inl member)
  | some slot =>
    obtain ⟨node, placed, same⟩ := node_of_slot known
    refine ⟨slot, _, add_own placed same earlier.size links, same, fun link member => ?_⟩
    rw [Node.mem_addLinks, (add_present placed same earlier.size links).2, Node.mem_missing]
    by_cases old : link ∈ node.links
    · exact Or.inr old
    · exact Or.inl ⟨member, (reached link member).previous_ne placed same, old⟩

theorem Sound.add (sound : column.Sound start ids earlier)
    (valid : item.Valid grammar start ids earlier.size)
    (reached : ∀ link ∈ links, ReachedBy ids (earlier.push column) earlier.size item link) :
    (column.add earlier.size item links).1.Sound start ids earlier := by
  have kept : ∀ id item', itemAt? (earlier.push column) id = some item' →
      itemAt? (earlier.push (column.add earlier.size item links).1) id = some item' :=
    fun _ _ => (add_extends column earlier.size item links).itemAt?
  constructor
  · intro slot later placed
    rcases add_backward placed with ⟨node, old, same, _⟩ | ⟨same, _⟩
    · rw [same]
      exact sound.valid slot node old
    · rw [same]
      exact valid
  · intro slot later link placed member
    rcases add_backward placed with ⟨node, old, same, origin⟩ | ⟨same, given⟩
    · rw [same]
      rcases origin link member with had | ⟨own, given⟩
      · exact (sound.reached slot node link old had).mono kept
      · rw [own]
        exact (reached link given).mono kept
    · rw [same]
      exact (reached link (given member)).mono kept

/-- What every step on a column keeps: the nodes, that they hold, and that links have been passed on. -/
structure Grows (start : Nat) (ids : List TokenId) (earlier : Array (Column grammar))
    (column later : Column grammar) : Prop where
  kept : later.Extends column
  sound : later.Sound start ids earlier
  closed : ∀ slot, slot < column.nodes.size → column.SkipClosed slot → later.SkipClosed slot

theorem Grows.refl (sound : column.Sound start ids earlier) : Grows start ids earlier column column where
  kept := .refl column
  sound := sound
  closed _ _ closed := closed

theorem Grows.trans {latest : Column grammar} (first : Grows start ids earlier column later)
    (second : Grows start ids earlier later latest) : Grows start ids earlier column latest where
  kept := second.kept.trans first.kept
  sound := second.sound
  closed slot inside closed :=
    second.closed slot (Nat.lt_of_lt_of_le inside first.kept.size_le) (first.closed slot inside closed)

theorem SkipClosed.add_other (closed : column.SkipClosed slot) (placed : column.nodes[slot]? = some node)
    (other : node.item ≠ item) (position : Nat) (links : List Link) :
    (column.add position item links).1.SkipClosed slot := by
  intro later placedLater skippable
  rw [Column.add_other placed other position links] at placedLater
  cases placedLater
  exact (closed node placed skippable).mono (add_extends column position item links)

/-- Where an insertion ends, the item cannot be skipped or has got no new link. -/
theorem SkipClosed.add_last (closed : column.SkipClosed slot) (placed : column.nodes[slot]? = some node)
    (ended : item.canSkip grammar = true → (column.add position item links).2 = []) :
    (column.add position item links).1.SkipClosed slot := by
  by_cases same : node.item = item
  · intro later placedLater skippable
    rw [add_own placed same position links] at placedLater
    cases placedLater
    rw [Node.item_addLinks] at skippable ⊢
    rw [ended (same ▸ skippable), Node.addLinks_nil]
    exact (closed node placed skippable).mono (add_extends column position item links)
  · exact closed.add_other placed same position links

/-- Where an insertion goes on, the skipped item gets the links that are new to the item. -/
theorem SkipClosed.add_skipped (closed : column.SkipClosed slot)
    (placed : column.nodes[slot]? = some node) (same : node.item = item)
    (grown : later.Extends (column.add position item links).1)
    (unchanged : later.nodes[slot]? = (column.add position item links).1.nodes[slot]?)
    (passed : later.Contains item.skipped (column.add position item links).2) :
    later.SkipClosed slot := by
  intro node' placed' skippable
  rw [unchanged, add_own placed same position links] at placed'
  cases placed'
  rw [Node.item_addLinks] at skippable ⊢
  have old := (closed node placed skippable).mono
    (grown.trans (add_extends column position item links))
  obtain ⟨slot', target, placedTarget, sameTarget, present⟩ := old
  refine ⟨slot', target, placedTarget, sameTarget, fun link member => ?_⟩
  rcases (Node.mem_addLinks _ _ _).mp member with added | had
  · exact passed.links_subset placedTarget (by rw [sameTarget, same]) added
  · exact present had

theorem canSkip_of_drop {element : Element} {rest : List Element}
    (front : element :: rest = (grammar.elements item.rule item.alternative).drop item.index) :
    item.canSkip grammar = (item.matched || element.multiplicity.isOptional) := by
  have placed : item.element? grammar = some element := by
    rw [Item.element?, Grammar.element?, ← List.head?_drop, ← front, List.head?_cons]
  rw [Item.canSkip, placed, Option.any_some]

theorem add_grows (sound : column.Sound start ids earlier)
    (valid : item.Valid grammar start ids earlier.size)
    (reached : ∀ link ∈ links, ReachedBy ids (earlier.push column) earlier.size item link)
    (ended : item.canSkip grammar = true → (column.add earlier.size item links).2 = []) :
    Grows start ids earlier column (column.add earlier.size item links).1 where
  kept := add_extends column earlier.size item links
  sound := sound.add valid reached
  closed _ inside closed := closed.add_last (Array.getElem?_eq_getElem inside) ended

/-- An insertion of an item that holds keeps what a column has, and puts the item there with its
links. Nodes of places before the item's own stay as they are. -/
theorem insertBefore_grows (rest : List Element)
    (front : rest = (grammar.elements item.rule item.alternative).drop item.index)
    (sound : column.Sound start ids earlier) (valid : item.Valid grammar start ids earlier.size)
    (reached : ∀ link ∈ links, ReachedBy ids (earlier.push column) earlier.size item link) :
    Grows start ids earlier column (insertBefore earlier.size rest item links column) ∧
      (insertBefore earlier.size rest item links column).Contains item links ∧
      ∀ (slot : Nat) (node : Node), column.nodes[slot]? = some node → node.item.index < item.index →
        (insertBefore earlier.size rest item links column).nodes[slot]? = some node := by
  induction rest generalizing item links column with
  | nil =>
    have ended : item.canSkip grammar = true → (column.add earlier.size item links).2 = [] := by
      intro skippable
      obtain ⟨element, placed, _⟩ := (Option.any_eq_true _ _).mp skippable
      have inside := Item.index_lt_of_element? placed
      have outside := List.drop_eq_nil_iff.mp front.symm
      omega
    exact ⟨add_grows sound valid reached ended, add_contains reached,
      fun slot node placed below => add_before placed below _ _⟩
  | cons element rest ih =>
    have skips := canSkip_of_drop front
    simp only [insertBefore, ← skips]
    split
    · rename_i goesOn
      have grown := add_extends column earlier.size item links
      obtain ⟨_, skippable⟩ := (Bool.and_eq_true _ _).mp goesOn
      have further : ∀ link ∈ (column.add earlier.size item links).2, ReachedBy ids
          (earlier.push (column.add earlier.size item links).1) earlier.size item.skipped link := by
        intro link member
        have given := added_subset column earlier.size item links member
        exact ((reached link given).mono fun _ _ => grown.itemAt?).skipped skippable
      have behind : rest = (grammar.elements item.skipped.rule item.skipped.alternative).drop
          item.skipped.index := by
        show rest = (grammar.elements item.rule item.alternative).drop (item.index + 1)
        rw [← List.tail_drop, ← front, List.tail_cons]
      obtain ⟨grows, contains, frame⟩ :=
        ih behind (sound.add valid reached) (valid.skipped skippable) further
      refine ⟨⟨grows.kept.trans grown, grows.sound, ?_⟩, (add_contains reached).mono grows.kept, ?_⟩
      · intro slot inside closed
        have placed := Array.getElem?_eq_getElem inside
        by_cases same : (column.nodes[slot]).item = item
        · have own := add_own placed same earlier.size links
          refine closed.add_skipped placed same grows.kept ?_ contains
          rw [frame slot _ own (by simp [Node.item_addLinks, same, Item.skipped]), own]
        · exact grows.closed slot (Nat.lt_of_lt_of_le inside grown.size_le)
            (closed.add_other placed same _ _)
      · intro slot node placed below
        exact frame slot node (add_before placed below _ _) (Nat.lt_succ_of_lt below)
    · rename_i stops
      have ended : item.canSkip grammar = true → (column.add earlier.size item links).2 = [] := by
        intro skippable
        simpa [skippable] using stops
      exact ⟨add_grows sound valid reached ended, add_contains reached,
        fun slot node placed below => add_before placed below _ _⟩

theorem insert_grows (sound : column.Sound start ids earlier)
    (valid : item.Valid grammar start ids earlier.size)
    (reached : ∀ link ∈ links, ReachedBy ids (earlier.push column) earlier.size item link) :
    Grows start ids earlier column (column.insert earlier.size item links) ∧
      (column.insert earlier.size item links).Contains item links :=
  have inserted := insertBefore_grows _ rfl sound valid reached
  ⟨inserted.1, inserted.2.1⟩

end Column

end Typeahead
