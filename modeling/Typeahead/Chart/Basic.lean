import Typeahead.Chart.Column
import Typeahead.Token.Basic

/-!
Charts: all ways in which a rule may match the tokens of an input from its front, position by
position. A position's column is closed by three steps, taken for each node in turn: an item predicts
the rule it awaits, moves past an element that need not occur (again), and, once complete, advances
the items that await its rule. No step touches the column of an earlier position.
-/

namespace Typeahead

/-- The columns of a chart for `start` over tokens, one more than there are tokens. -/
structure Chart where
  grammar : Grammar
  start : Nat
  tokens : List Token
  columns : Array (Column grammar)

namespace Column

variable {grammar : Grammar} (earlier : Array (Column grammar))

/-- Moves an item past the rule that another node completes. -/
def advance (waiter : NodeId) (item : Item) (completed : NodeId) (column : Column grammar) :
    Column grammar :=
  column.insert completed.position item.advanced [⟨waiter, item.index, .rule completed⟩]

/-- The column at a position: one of the earlier ones, or else the one that is growing. -/
def among (position : Nat) (column : Column grammar) : Column grammar :=
  (earlier[position]?).getD column

/-- The items that await the rule of an item where that began, with their places. -/
def waitersOf (item : Item) (column : Column grammar) : List (Item × Nat) :=
  let source := column.among earlier item.origin
  (source.awaiting item.rule).filterMap fun slot =>
    (source.nodes[slot]?).map fun node => (node.item, slot)

def complete (slot : Nat) (item : Item) (column : Column grammar) : Column grammar :=
  (column.waitersOf earlier item).foldl
    (fun column waiter =>
      column.advance ⟨item.origin, waiter.2⟩ waiter.1 ⟨earlier.size, slot⟩)
    column

/-- The nodes before `slot` that have completed a rule without a token, by their places. -/
def emptyBefore (slot target : Nat) (column : Column grammar) : List Nat :=
  (List.range slot).filter fun place =>
    (column.nodes[place]?).any fun node =>
      node.item.rule == target && node.item.origin == earlier.size && node.item.isComplete grammar

/-- Begins the alternatives of the rule that the node at `slot` awaits. Where nodes before it have
completed that rule without a token, it is moved past the rule at once. -/
def predict (slot : Nat) (item : Item) (column : Column grammar) : Column grammar :=
  match item.awaited? grammar with
  | none => column
  | some target =>
    let position := earlier.size
    let predicted := (List.range (grammar.alternatives target).length).foldl
      (fun column alternative => column.insert position (.start target alternative position) [])
      column
    (predicted.emptyBefore earlier slot target).foldl
      (fun column place => column.advance ⟨position, slot⟩ item ⟨position, place⟩)
      predicted

/-- Moves the item of the node at `slot` past an element that has occurred or may be left out. -/
def skip (slot : Nat) (item : Item) (column : Column grammar) : Column grammar :=
  match item.element? grammar with
  | none => column
  | some element =>
    if item.matched || element.multiplicity.isOptional then
      column.insert earlier.size item.skipped ((column.nodes[slot]?.map Node.links).getD [])
    else column

def step (slot : Nat) (column : Column grammar) : Column grammar :=
  match column.nodes[slot]? with
  | none => column
  | some node =>
    if node.item.isComplete grammar then column.complete earlier slot node.item
    else (column.predict earlier slot node.item).skip earlier slot node.item

/-- Takes the step of each node from `slot` on, those that are added on the way included. -/
def closeFrom : (fuel slot : Nat) → Column grammar → Column grammar
  | 0, _, column => column
  | fuel + 1, slot, column =>
    if slot < column.nodes.size then closeFrom fuel (slot + 1) (column.step earlier slot)
    else column

/-- The number of items that there can be with one origin. -/
def capacity (grammar : Grammar) : Nat :=
  (grammar.rules.map fun rule =>
    (rule.alternatives.map fun alternative =>
      2 * alternative.elements.length + 1).foldr (· + ·) 0).foldr (· + ·) 0

/-- A column with all that follows from its nodes. The origins are the positions up to its own. -/
def close (column : Column grammar) : Column grammar :=
  column.closeFrom earlier ((earlier.size + 1) * capacity grammar) 0

/-- The items whose next element is a terminal that accepts a token, moved past it. -/
def scan (id : TokenId) (previous : Column grammar) : Column grammar :=
  let position := earlier.size
  let accepting := previous.inOrder.filter fun place =>
    (place.1.next? grammar).any (·.symbol.accepts id)
  accepting.foldl
    (fun column place =>
      column.insert position place.1.advanced
        [⟨⟨position - 1, place.2⟩, place.1.index, .token (position - 1)⟩])
    {}

end Column

namespace Chart

def first (grammar : Grammar) (start : Nat) : Column grammar :=
  let predicted := (List.range (grammar.alternatives start).length).foldl
    (fun column alternative => column.insert 0 (.start start alternative 0) [])
    ({} : Column grammar)
  predicted.close #[]

def extend {grammar : Grammar} (columns : Array (Column grammar)) (token : Token) :
    Array (Column grammar) :=
  let scanned := Column.scan columns token.id ((columns.back?).getD {})
  columns.push (scanned.close columns)

def parse (grammar : Grammar) (start : Nat) (tokens : List Token) : Chart :=
  ⟨grammar, start, tokens, tokens.foldl extend #[first grammar start]⟩

def parseRule (grammar : Grammar) (name : String) (tokens : List Token) :
    Except RuleNotFound Chart :=
  (grammar.findRule name).map fun rule => parse grammar rule tokens

def positions (chart : Chart) : Nat := chart.columns.size

def column (chart : Chart) (position : Nat) : Column chart.grammar :=
  (chart.columns[position]?).getD {}

def node? (chart : Chart) (id : NodeId) : Option Node := (chart.column id.position).nodes[id.slot]?

def links (chart : Chart) (id : NodeId) : List Link := ((chart.node? id).map Node.links).getD []

def expectingTerminal (chart : Chart) (position : Nat) : List NodeId :=
  ((chart.column position).inOrder.filter (·.1.expectsTerminal chart.grammar)).map
    fun place => ⟨position, place.2⟩

def expected? (chart : Chart) (id : NodeId) : Option Element :=
  (chart.node? id).bind (·.item.next? chart.grammar)

def isRoot (chart : Chart) (item : Item) : Bool := item.rule == chart.start && item.origin == 0

def endsAt (chart : Chart) (position : Nat) : Bool :=
  (chart.column position).nodes.any fun node =>
    chart.isRoot node.item && node.item.isComplete chart.grammar

def endOfMatch? (chart : Chart) : Option Nat :=
  ((List.range chart.positions).filter chart.endsAt).getLast?

def accepts (chart : Chart) : Bool := chart.endOfMatch? == some chart.tokens.length

/-- The matches on the way to a node, where at each node the first link is taken. -/
def countLinks (chart : Chart) : (fuel : Nat) → NodeId → Nat
  | 0, _ => 0
  | fuel + 1, id =>
    match chart.links id with
    | [] => 0
    | link :: _ => 1 + chart.countLinks fuel link.previous

/-- An upper bound on the matches that lead to a node: each begins at an earlier position, or else at an
earlier place of the same alternative. -/
def linkBound (chart : Chart) (id : NodeId) : Nat :=
  match chart.node? id with
  | none => 0
  | some node =>
    let size := (chart.grammar.elements node.item.rule node.item.alternative).length
    id.position * (2 * size + 1) + 2 * node.item.index + node.item.matched.toNat

/-- How many elements of its alternative a node has parsed, repetitions included. -/
def parsedCount (chart : Chart) (id : NodeId) : Nat := chart.countLinks (chart.linkBound id) id

end Chart

end Typeahead
