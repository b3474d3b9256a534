import Typeahead.Proofs.Chart.Agenda

/-!
Charts under construction, one insertion at a time. A draft goes through all that happens while the columns
of a chart grow, and whatever it comes to is on the way to that chart.
-/

namespace Typeahead

/-- What a turn has still to do: insertions, and at its end the skip of a node, which takes the links that
the node has by then. -/
inductive Call where
  | insert (item : Item) (links : List Link)
  | skip (slot : Nat)
deriving DecidableEq

namespace Call

def start (rule position alternative : Nat) : Call := .insert (.start rule alternative position) []

def advance (waiter : NodeId) (item : Item) (completed : NodeId) : Call :=
  .insert item.advanced [⟨waiter, item.index, .rule completed⟩]

/-- The item at a place, moved past the token at the position. -/
def scan (position : Nat) (place : Item × Nat) : Call :=
  .insert place.1.advanced [⟨⟨position, place.2⟩, place.1.index, .token position⟩]

/-- Begins all alternatives of a rule. -/
def starts (grammar : Grammar) (rule position : Nat) : List Call :=
  (List.range (grammar.alternatives rule).length).map (.start rule position)

end Call

namespace Column

variable {grammar : Grammar}

/-- A column without nodes, as a chart without columns shows it. -/
def blank (grammar : Grammar) : Column grammar := (Chart.mk grammar 0 [] #[]).column 0

def predictions (earlier : Array (Column grammar)) (slot : Nat) (item : Item)
    (column : Column grammar) : List Call :=
  match item.awaited? grammar with
  | none => []
  | some target =>
    Call.starts grammar target earlier.size ++
      (column.emptyBefore earlier slot target).map fun place =>
        .advance ⟨earlier.size, slot⟩ item ⟨earlier.size, place⟩

/-- The calls of the turn of the node at `slot`. -/
def turn (earlier : Array (Column grammar)) (slot : Nat) (column : Column grammar) : List Call :=
  match column.nodes[slot]? with
  | none => []
  | some node =>
    if node.item.isComplete grammar then
      (column.waitersOf earlier node.item).map fun waiter =>
        .advance ⟨node.item.origin, waiter.2⟩ waiter.1 ⟨earlier.size, slot⟩
    else column.predictions earlier slot node.item ++
      if node.item.canSkip grammar then [.skip slot] else []

end Column

/-- A chart under construction: the columns that are done, the one that grows, the places of the nodes in
it that wait for their turn, and the calls that are still to be made before that. -/
structure Draft (grammar : Grammar) where
  earlier : Array (Column grammar)
  column : Column grammar
  agenda : List Nat
  calls : List Call

namespace Draft

variable {grammar : Grammar}

def first (grammar : Grammar) (start : Nat) : Draft grammar :=
  ⟨#[], .blank grammar, [], Call.starts grammar start 0⟩

/-- Makes one call, with `calls` to follow. An insertion puts a new node on the agenda. Where it adds links to
an old node, it calls itself for the item that the node may be skipped to. -/
def make (draft : Draft grammar) : (call : Call) → (calls : List Call) → Draft grammar
  | .insert item links, calls =>
    let added := draft.column.add draft.earlier.size item links
    ⟨draft.earlier, added.1, draft.agenda ++ draft.column.added added.1,
      if !added.2.isEmpty && item.canSkip grammar then .insert item.skipped added.2 :: calls else calls⟩
  | .skip slot, calls =>
    { draft with
      calls := ((draft.column.nodes[slot]?).map fun node =>
        .insert node.item.skipped node.links).toList ++ calls }

/-- Begins the next column with what the token leads to. -/
def scan (draft : Draft grammar) (token : Token) : Draft grammar :=
  let accepting := draft.column.inOrder.filter fun place =>
    (place.1.next? grammar).any (·.symbol.accepts token.id)
  ⟨draft.earlier.push draft.column, .blank grammar, [], accepting.map (.scan draft.earlier.size)⟩

/-- What a draft does next: the call in front, or else the turn of the node that has waited longest, or
else the next column. -/
def next? (tokens : List Token) (draft : Draft grammar) : Option (Draft grammar) :=
  match draft.calls, draft.agenda with
  | call :: calls, _ => some (draft.make call calls)
  | [], slot :: agenda =>
    some ⟨draft.earlier, draft.column, agenda, draft.column.turn draft.earlier slot⟩
  | [], [] => (tokens[draft.earlier.size]?).map draft.scan

abbrev Reaches (tokens : List Token) : Draft grammar → Draft grammar → Prop :=
  Relation.ReflTransGen fun draft later => draft.next? tokens = some later

/-- The draft that comes after so many steps, or the last one. -/
def run (tokens : List Token) : (steps : Nat) → Draft grammar → Draft grammar
  | 0, draft => draft
  | steps + 1, draft => ((draft.next? tokens).map (run tokens steps)).getD draft

theorem reaches_run (tokens : List Token) (steps : Nat) (draft : Draft grammar) :
    Reaches tokens draft (draft.run tokens steps) := by
  induction steps generalizing draft with
  | zero => exact .refl
  | succ steps ih =>
    rw [run]
    cases next : draft.next? tokens with
    | none => exact .refl
    | some later => exact .head next (ih later)

/-- Nothing is left to do at the position. -/
def Closed (draft : Draft grammar) : Prop := draft.agenda = [] ∧ draft.calls = []

def chart (start : Nat) (tokens : List Token) (draft : Draft grammar) : Chart :=
  ⟨grammar, start, tokens, draft.earlier.push draft.column⟩

end Draft

namespace Column

variable {grammar : Grammar} {tokens : List Token} {earlier : Array (Column grammar)}
  {column later latest : Column grammar} {calls others : List Call} {item : Item} {links : List Link}

theorem added_self (column : Column grammar) : column.added column = [] := by
  rw [added, Nat.sub_self, List.range'_zero]

theorem added_append (first : column.nodes.size ≤ later.nodes.size)
    (second : later.nodes.size ≤ latest.nodes.size) :
    column.added later ++ later.added latest = column.added latest := range'_append_sub first second

/-- Calls turn a column into another one and put the nodes they add on the agenda. -/
structure Builds (tokens : List Token) (earlier : Array (Column grammar)) (calls : List Call)
    (column later : Column grammar) : Prop where
  size_le : column.nodes.size ≤ later.nodes.size
  reaches : ∀ agenda rest, Draft.Reaches tokens ⟨earlier, column, agenda, calls ++ rest⟩
    ⟨earlier, later, agenda ++ column.added later, rest⟩

namespace Builds

theorem nil (column : Column grammar) : Builds tokens earlier [] column column where
  size_le := Nat.le_refl _
  reaches agenda rest := by
    rw [added_self, List.append_nil]
    exact .refl

theorem append (first : Builds tokens earlier calls column later)
    (second : Builds tokens earlier others later latest) :
    Builds tokens earlier (calls ++ others) column latest where
  size_le := Nat.le_trans first.size_le second.size_le
  reaches agenda rest := by
    have front := first.reaches agenda (others ++ rest)
    have back := second.reaches (agenda ++ column.added later) rest
    rw [List.append_assoc, added_append first.size_le second.size_le] at back
    rw [List.append_assoc]
    exact front.trans back

theorem of_inserts {count : Nat} (inserts : Inserts earlier.size item links column count later) :
    Builds tokens earlier [.insert item links] column later := by
  induction inserts with
  | @last item links column ended =>
    refine ⟨(add_extends column earlier.size item links).size_le, fun agenda rest => .single ?_⟩
    have stops : (!(column.add earlier.size item links).2.isEmpty && item.canSkip grammar) = false := by
      rcases ended with none | stuck
      · rw [none, List.isEmpty_nil, Bool.not_true, Bool.false_and]
      · rw [stuck, Bool.and_false]
    simp only [Draft.next?, Draft.make, List.singleton_append, stops, Bool.false_eq_true, if_false]
  | @again item links column result count fresh skippable inserts rest =>
    have grown := (add_extends column earlier.size item links).size_le
    have goesOn : (!(column.add earlier.size item links).2.isEmpty && item.canSkip grammar) = true := by
      rw [skippable, Bool.and_true]
      simpa using fresh
    refine ⟨Nat.le_trans grown rest.size_le, fun agenda others => Relation.ReflTransGen.head
      (b := ⟨earlier, (column.add earlier.size item links).1,
        agenda ++ column.added (column.add earlier.size item links).1,
        .insert item.skipped (column.add earlier.size item links).2 :: others⟩) ?_ ?_⟩
    · simp only [Draft.next?, Draft.make, List.singleton_append, goesOn, if_true]
    · have behind := rest.reaches (agenda ++ column.added (column.add earlier.size item links).1) others
      rwa [List.append_assoc, added_append grown rest.size_le] at behind

theorem insert (item : Item) (links : List Link) (column : Column grammar) :
    Builds tokens earlier [.insert item links] column (column.insert earlier.size item links) :=
  have ⟨_, _, inserts⟩ := insertBefore_inserts earlier.size _ item links column rfl
  of_inserts inserts

theorem foldl {α : Type} (item : α → Item) (links : α → List Link) (xs : List α)
    (column : Column grammar) :
    Builds tokens earlier (xs.map fun x => .insert (item x) (links x)) column
      (xs.foldl (fun column x => column.insert earlier.size (item x) (links x)) column) := by
  induction xs generalizing column with
  | nil => exact nil column
  | cons x xs ih => exact (insert (item x) (links x) column).append (ih _)

theorem starts (rule : Nat) (column : Column grammar) :
    Builds tokens earlier (Call.starts grammar rule earlier.size) column
      ((List.range (grammar.alternatives rule).length).foldl
        (fun column alternative =>
          column.insert earlier.size (.start rule alternative earlier.size) []) column) :=
  foldl (fun alternative => .start rule alternative earlier.size) (fun _ => []) _ column

theorem complete (slot : Nat) (item : Item) (column : Column grammar) :
    Builds tokens earlier
      ((column.waitersOf earlier item).map fun waiter =>
        .advance ⟨item.origin, waiter.2⟩ waiter.1 ⟨earlier.size, slot⟩)
      column (column.complete earlier slot item) :=
  foldl (fun waiter : Item × Nat => waiter.1.advanced)
    (fun waiter => [⟨⟨item.origin, waiter.2⟩, waiter.1.index, .rule ⟨earlier.size, slot⟩⟩]) _ column

end Builds

theorem Extends.emptyBefore_eq (extended : later.Extends column) {slot : Nat}
    (within : slot ≤ column.nodes.size) (target : Nat) :
    later.emptyBefore earlier slot target = column.emptyBefore earlier slot target := by
  refine List.filter_congr fun place before => ?_
  have inside := Nat.lt_of_lt_of_le (List.mem_range.mp before) within
  have placed := Array.getElem?_eq_getElem inside
  obtain ⟨node, placedLater, same, _⟩ := extended place _ placed
  rw [placed, placedLater, Option.any_some, Option.any_some, same]

namespace Builds

variable {slot : Nat} {node : Node}

theorem predict (within : slot ≤ column.nodes.size) (item : Item) :
    Builds tokens earlier (column.predictions earlier slot item) column
      (column.predict earlier slot item) := by
  rw [predictions, Column.predict]
  cases item.awaited? grammar with
  | none => exact nil column
  | some target =>
    have begun := foldl_extends (fun (column : Column grammar) alternative =>
      column.insert earlier.size (.start target alternative earlier.size) [])
      (fun column _ => insertBefore_extends _ _ _ _ column)
      (List.range (grammar.alternatives target).length) column
    have started : Builds tokens earlier (Call.starts grammar target earlier.size) column _ :=
      starts target column
    dsimp only
    rw [← begun.emptyBefore_eq within target]
    exact started.append (foldl (fun _ => item.advanced)
      (fun place => [⟨⟨earlier.size, slot⟩, item.index, .rule ⟨earlier.size, place⟩⟩]) _ _)

theorem skip (placed : column.nodes[slot]? = some node) (skippable : node.item.canSkip grammar = true) :
    Builds tokens earlier [.skip slot] column (column.skip earlier slot node.item) := by
  have inserted : Builds tokens earlier _ column _ := insert node.item.skipped node.links column
  rw [skip_of_canSkip skippable, placed, Option.map_some, Option.getD_some]
  refine ⟨inserted.size_le, fun agenda rest => Relation.ReflTransGen.head ?_
    (inserted.reaches agenda rest)⟩
  simp only [Draft.next?, Draft.make, List.singleton_append, placed, Option.map_some, Option.toList_some]

theorem turn (slot : Nat) (column : Column grammar) :
    Builds tokens earlier (column.turn earlier slot) column (column.step earlier slot) := by
  rw [Column.turn, Column.step]
  cases placed : column.nodes[slot]? with
  | none => exact nil column
  | some node =>
    have within := Nat.le_of_lt (Array.getElem?_eq_some_iff.mp placed).1
    have predicted : Builds tokens earlier _ column _ := predict within node.item
    obtain ⟨later, placedLater, same, _⟩ := predict_extends earlier slot node.item column slot node placed
    dsimp only
    split
    · exact complete slot node.item column
    · refine predicted.append ?_
      split
      · rename_i skippable
        rw [← same] at skippable
        have skipped : Builds tokens earlier _ _ _ := skip placedLater skippable
        rwa [same] at skipped
      · rename_i stuck
        rw [skip_of_not_canSkip stuck]
        exact nil _

theorem scan {position : Nat} (size : earlier.size = position + 1) (id : TokenId)
    (previous : Column grammar) :
    Builds tokens earlier
      ((previous.inOrder.filter fun place => (place.1.next? grammar).any (·.symbol.accepts id)).map
        (Call.scan position))
      (blank grammar) (Column.scan earlier id previous) := by
  have here : earlier.size - 1 = position := by omega
  subst here
  exact foldl (fun place : Item × Nat => place.1.advanced)
    (fun place => [⟨⟨earlier.size - 1, place.2⟩, place.1.index, .token (earlier.size - 1)⟩]) _ (blank grammar)

end Builds

theorem Drains.reaches (tokens : List Token) {agenda turns : List Nat} {closed : Column grammar}
    (drains : Drains earlier column agenda turns closed) :
    Draft.Reaches tokens ⟨earlier, column, agenda, []⟩ ⟨earlier, closed, [], []⟩ := by
  induction drains with
  | done column => exact .refl
  | @turn column closed slot agenda turns rest ih =>
    have builds : Builds tokens earlier _ column _ := .turn slot column
    have turned := builds.reaches agenda []
    rw [List.append_nil] at turned
    exact .head rfl (turned.trans ih)

end Column

namespace Draft

open Column

variable {grammar : Grammar} {start position : Nat} {tokens : List Token} {draft later : Draft grammar}

section Columns

variable {columns : Array (Column grammar)} {column : Column grammar} {ids : List TokenId}
  (opened : Opened start tokens columns) (charted : Charted start ids columns)

include opened charted

theorem reaches_column {calls : List Call} (inChart : columns[position]? = some column)
    (builds : Builds tokens (columns.extract 0 position) calls (blank grammar)
      (opening start tokens columns position)) :
    Reaches tokens ⟨columns.extract 0 position, blank grammar, [], calls⟩
      ⟨columns.extract 0 position, column, [], []⟩ := by
  have opens := builds.reaches [] []
  have drains := (opened.drains charted inChart).reaches tokens
  rw [List.range_eq_range'] at drains
  rw [List.append_nil, List.nil_append] at opens
  exact opens.trans drains

/-- A draft comes to the columns of a chart one behind the other. -/
theorem first_reaches_column (size : columns.size = tokens.length + 1)
    (inChart : columns[position]? = some column) :
    Reaches tokens (first grammar start) ⟨columns.extract 0 position, column, [], []⟩ := by
  induction position generalizing column with
  | zero =>
    have nothing : columns.extract 0 0 = #[] := by simp
    have started : Builds tokens (#[] : Array (Column grammar)) (Call.starts grammar start 0)
        (blank grammar) (opening start tokens columns 0) := .starts start (blank grammar)
    have closes := reaches_column opened charted inChart (nothing ▸ started)
    rwa [nothing] at closes ⊢
  | succ position ih =>
    have inside := (Array.getElem?_eq_some_iff.mp inChart).1
    have before := Array.getElem?_eq_getElem (Nat.lt_of_succ_lt inside)
    have present := List.getElem?_eq_getElem (show position < tokens.length by omega)
    have builds : Builds tokens (columns.extract 0 (position + 1)) _ (blank grammar) _ :=
      .scan (size_extract inChart) tokens[position].id columns[position]
    have opens : opening start tokens columns (position + 1) =
        Column.scan (columns.extract 0 (position + 1)) tokens[position].id columns[position] := by
      rw [opening, present, Option.map_some, Option.getD_some, Chart.column, before, Option.getD_some]
    have next : Draft.next? tokens ⟨columns.extract 0 position, columns[position], [], []⟩ =
        some ⟨columns.extract 0 (position + 1), blank grammar, [],
          (columns[position].inOrder.filter fun place =>
            (place.1.next? grammar).any (·.symbol.accepts tokens[position].id)).map
              (.scan position)⟩ := by
      simp only [next?, size_extract before, present, Option.map_some, scan,
        Array.push_extract_getElem (Nat.lt_of_succ_lt inside), Nat.min_eq_left (Nat.zero_le _)]
    exact (ih before).trans (.head next (reaches_column opened charted inChart (opens ▸ builds)))

end Columns

theorem next?_of_closed (closed : draft.Closed) :
    draft.next? tokens = (tokens[draft.earlier.size]?).map draft.scan := by
  rw [next?, closed.1, closed.2]

/-- The column at hand grows until nothing is left to do, and then the next one begins. -/
theorem extends_of_next? (next : draft.next? tokens = some later) :
    later.earlier = draft.earlier ∧ later.column.Extends draft.column ∨
      draft.Closed ∧ later.earlier = draft.earlier.push draft.column := by
  rw [next?] at next
  split at next
  · rename_i call calls front
    cases next
    cases call with
    | insert item links => exact .inl ⟨rfl, add_extends draft.column draft.earlier.size item links⟩
    | skip slot => exact .inl ⟨rfl, .refl _⟩
  · cases next
    exact .inl ⟨rfl, .refl _⟩
  · rename_i noCalls noAgenda
    obtain ⟨token, _, rfl⟩ := Option.map_eq_some_iff.mp next
    exact .inr ⟨⟨noAgenda, noCalls⟩, rfl⟩

theorem Reaches.size_le (reaches : Reaches tokens draft later) :
    draft.earlier.size ≤ later.earlier.size := by
  induction reaches with
  | refl => exact Nat.le_refl _
  | tail _ next ih =>
    rcases extends_of_next? next with ⟨same, _⟩ | ⟨_, grown⟩
    · rwa [same]
    · rw [grown, Array.size_push]
      exact Nat.le_succ_of_le ih

theorem Reaches.eq_of_stuck (reaches : Reaches tokens draft later) (stuck : draft.next? tokens = none) :
    later = draft := by
  rcases reaches.cases_head with same | ⟨between, next, _⟩
  · exact same.symm
  · rw [stuck] at next
    cases next

/-- From a position at which nothing is left to do, a draft goes on to later ones. -/
theorem Reaches.eq_of_closed (reaches : Reaches tokens draft later) (closed : draft.Closed)
    (here : later.earlier.size ≤ draft.earlier.size) : later = draft := by
  rcases reaches.cases_head with same | ⟨between, next, rest⟩
  · exact same.symm
  · rw [next?_of_closed closed] at next
    obtain ⟨token, _, rfl⟩ := Option.map_eq_some_iff.mp next
    have grown := Reaches.size_le rest
    rw [scan, Array.size_push] at grown
    omega

/-- There is one way only, so that of two drafts one leads to the other. -/
theorem Reaches.total {first : Draft grammar} (reaches : Reaches tokens first draft)
    (others : Reaches tokens first later) : Reaches tokens draft later ∨ Reaches tokens later draft :=
  reaches.total_of_right_unique (fun _ _ _ next other => Option.some.inj (next.symm.trans other)) others

section Columns

variable {columns : Array (Column grammar)} {column : Column grammar} {ids : List TokenId}
  (opened : Opened start tokens columns) (charted : Charted start ids columns)
  (size : columns.size = tokens.length + 1) (reached : Reaches tokens (first grammar start) draft)

include opened charted size reached

/-- Whatever a draft comes to, it goes on to the last column. -/
theorem reaches_last (inChart : columns[tokens.length]? = some column) :
    Reaches tokens draft ⟨columns.extract 0 tokens.length, column, [], []⟩ := by
  rcases reached.total (first_reaches_column opened charted size inChart) with goesOn | ended
  · exact goesOn
  · have stuck : next? tokens ⟨columns.extract 0 tokens.length, column, [], []⟩ = none := by
      rw [next?_of_closed ⟨rfl, rfl⟩, size_extract inChart, List.getElem?_eq_none (Nat.le_refl _),
        Option.map_none]
    rw [ended.eq_of_stuck stuck]

theorem size_earlier_le : draft.earlier.size ≤ tokens.length := by
  have inChart := Array.getElem?_eq_getElem (show tokens.length < columns.size by omega)
  have goesOn := (reaches_last opened charted size reached inChart).size_le
  rwa [size_extract inChart] at goesOn

/-- Where nothing is left to do at a position, a draft holds the columns of the chart up to there. -/
theorem columns_of_closed (closed : draft.Closed) :
    columns[draft.earlier.size]? = some draft.column ∧
      columns.extract 0 draft.earlier.size = draft.earlier := by
  have within := size_earlier_le opened charted size reached
  have inChart := Array.getElem?_eq_getElem (show draft.earlier.size < columns.size by omega)
  have here := size_extract inChart
  have same : draft = ⟨columns.extract 0 draft.earlier.size, columns[draft.earlier.size], [], []⟩ := by
    rcases reached.total (first_reaches_column opened charted size inChart) with goesOn | came
    · exact (goesOn.eq_of_closed closed here.le).symm
    · exact came.eq_of_closed ⟨rfl, rfl⟩ here.ge
  refine ⟨inChart.trans (congrArg some ?_), (congrArg Draft.earlier same).symm⟩
  exact (congrArg Draft.column same).symm

end Columns

end Draft

end Typeahead
