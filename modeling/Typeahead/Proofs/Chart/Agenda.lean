import Typeahead.Grammar.Sample
import Typeahead.Proofs.Chart.Invariant

/-!
The work on a chart comes to an end. An insertion calls itself for the places behind its item at most, each
node of a column gets exactly one turn, and a column has no more nodes than there are items.
-/

namespace Typeahead

theorem range'_append_sub {first middle last : Nat} (front : first ≤ middle) (back : middle ≤ last) :
    List.range' first (middle - first) ++ List.range' middle (last - middle) =
      List.range' first (last - first) := by
  have joined := List.range'_append_1 (s := first) (m := middle - first) (n := last - middle)
  rwa [Nat.add_sub_cancel' front, show middle - first + (last - middle) = last - first by omega] at joined

namespace Column

variable {grammar : Grammar}

/-- An insertion as it calls itself: for the item behind, as long as there are links that are new to an
item that was there and that may be skipped. -/
inductive Inserts (position : Nat) : (item : Item) → (links : List Link) → (column : Column grammar) →
    (calls : Nat) → (result : Column grammar) → Prop where
  | last {item : Item} {links : List Link} {column : Column grammar}
      (ended : (column.add position item links).2 = [] ∨ item.canSkip grammar = false) :
      Inserts position item links column 1 (column.add position item links).1
  | again {item : Item} {links : List Link} {column result : Column grammar} {calls : Nat}
      (fresh : (column.add position item links).2 ≠ []) (skippable : item.canSkip grammar = true)
      (rest : Inserts position item.skipped (column.add position item links).2
        (column.add position item links).1 calls result) :
      Inserts position item links column (calls + 1) result

/-- The places of the nodes that a column has and an earlier form of it has not. -/
def added (column later : Column grammar) : List Nat :=
  List.range' column.nodes.size (later.nodes.size - column.nodes.size)

/-- A column at work. The node in front of the agenda gets its turn, what it adds waits behind all others,
and the work ends when no node waits. -/
inductive Drains (earlier : Array (Column grammar)) : (column : Column grammar) → (agenda : List Nat) →
    (turns : List Nat) → (closed : Column grammar) → Prop where
  | done (column : Column grammar) : Drains earlier column [] [] column
  | turn {column closed : Column grammar} {slot : Nat} {agenda turns : List Nat}
      (rest : Drains earlier (column.step earlier slot)
        (agenda ++ column.added (column.step earlier slot)) turns closed) :
      Drains earlier column (slot :: agenda) (slot :: turns) closed

variable {column : Column grammar} {earlier : Array (Column grammar)} {start slot : Nat}

theorem insertBefore_inserts (position : Nat) (rest : List Element) (item : Item) (links : List Link)
    (column : Column grammar)
    (front : rest = (grammar.elements item.rule item.alternative).drop item.index) :
    ∃ calls ≤ rest.length + 1,
      Inserts position item links column calls (insertBefore position rest item links column) := by
  induction rest generalizing item links column with
  | nil =>
    have ended : item.element? grammar = none := by
      rw [Item.element?, Grammar.element?, ← List.head?_drop, ← front, List.head?_nil]
    exact ⟨1, Nat.le_refl 1, .last (.inr (by rw [Item.canSkip, ended, Option.any_none]))⟩
  | cons element rest ih =>
    have skips := canSkip_of_drop front
    simp only [insertBefore, ← skips]
    split
    · rename_i goesOn
      obtain ⟨fresh, skippable⟩ := (Bool.and_eq_true _ _).mp goesOn
      have behind : rest = (grammar.elements item.skipped.rule item.skipped.alternative).drop
          item.skipped.index := by
        show rest = (grammar.elements item.rule item.alternative).drop (item.index + 1)
        rw [← List.tail_drop, ← front, List.tail_cons]
      obtain ⟨calls, few, inserts⟩ := ih item.skipped _ _ behind
      exact ⟨calls + 1, Nat.succ_le_succ few, .again (by simpa using fresh) skippable inserts⟩
    · rename_i stops
      refine ⟨1, Nat.le_add_left 1 _, .last ?_⟩
      by_cases none : (column.add position item links).2 = []
      · exact .inl none
      · exact .inr (by simpa [none] using stops)

theorem size_le_step (earlier : Array (Column grammar)) (slot : Nat) (column : Column grammar) :
    column.nodes.size ≤ (column.step earlier slot).nodes.size :=
  ((extends_inductive earlier.size column).step (.refl column) slot).size_le

theorem size_le_closeFrom (earlier : Array (Column grammar)) (fuel slot : Nat) (column : Column grammar) :
    column.nodes.size ≤ (column.closeFrom earlier fuel slot).nodes.size :=
  ((extends_inductive earlier.size column).closeFrom fuel slot (.refl column)).size_le

/-- Where a column ends with no more nodes than there were turns, all of them had theirs. -/
theorem closeFrom_drains (fuel : Nat) (within : slot ≤ column.nodes.size)
    (enough : (column.closeFrom earlier fuel slot).nodes.size ≤ slot + fuel) :
    Drains earlier column (List.range' slot (column.nodes.size - slot))
      (List.range' slot ((column.closeFrom earlier fuel slot).nodes.size - slot))
      (column.closeFrom earlier fuel slot) := by
  induction fuel generalizing slot column with
  | zero =>
    rw [closeFrom] at enough ⊢
    rw [show column.nodes.size - slot = 0 by omega]
    exact .done column
  | succ fuel ih =>
    rw [closeFrom] at enough ⊢
    split
    · rename_i inside
      rw [if_pos inside] at enough
      have wider := size_le_step earlier slot column
      have final := size_le_closeFrom earlier fuel (slot + 1) (column.step earlier slot)
      have enoughNext : ((column.step earlier slot).closeFrom earlier fuel (slot + 1)).nodes.size ≤
          slot + 1 + fuel := by omega
      have rest := ih (by omega) enoughNext
      have agenda : List.range' (slot + 1) ((column.step earlier slot).nodes.size - (slot + 1)) =
          List.range' (slot + 1) (column.nodes.size - (slot + 1)) ++
            column.added (column.step earlier slot) := (range'_append_sub inside wider).symm
      rw [agenda] at rest
      have turn := Drains.turn rest
      rw [← List.range'_succ, ← List.range'_succ] at turn
      rwa [show column.nodes.size - slot = column.nodes.size - (slot + 1) + 1 by omega,
        show ((column.step earlier slot).closeFrom earlier fuel (slot + 1)).nodes.size - slot =
          ((column.step earlier slot).closeFrom earlier fuel (slot + 1)).nodes.size - (slot + 1) + 1
          by omega]
    · rw [show column.nodes.size - slot = 0 by omega]
      exact .done column

theorem close_drains
    (enough : (column.close earlier).nodes.size ≤ (earlier.size + 1) * capacity grammar) :
    Drains earlier column (List.range column.nodes.size)
      (List.range (column.close earlier).nodes.size) (column.close earlier) := by
  have drains := closeFrom_drains ((earlier.size + 1) * capacity grammar)
    (Nat.zero_le column.nodes.size) (Nat.le_trans enough (Nat.zero_add _).ge)
  rwa [Nat.sub_zero, Nat.sub_zero, ← List.range_eq_range', ← List.range_eq_range'] at drains

/-- What a column holds before its nodes get their turns: the alternatives of the start rule in front, and
elsewhere what the token before it leads to. A chart without columns shows one without nodes. -/
def opening (start : Nat) (tokens : List Token) (columns : Array (Column grammar)) : Nat → Column grammar
  | 0 => (List.range (grammar.alternatives start).length).foldl
      (fun column alternative => column.insert 0 (.start start alternative 0) [])
      ((Chart.mk grammar start tokens #[]).column 0)
  | position + 1 => ((tokens[position]?).map fun token =>
      scan (columns.extract 0 (position + 1)) token.id
        ((Chart.mk grammar start tokens columns).column position)).getD
      ((Chart.mk grammar start tokens #[]).column 0)

theorem opening_push (start : Nat) (tokens : List Token) (columns : Array (Column grammar))
    (column : Column grammar) {position : Nat} (within : position ≤ columns.size) :
    opening start tokens (columns.push column) position = opening start tokens columns position := by
  cases position with
  | zero => rfl
  | succ position =>
    have behind : (Chart.mk grammar start tokens (columns.push column)).column position =
        (Chart.mk grammar start tokens columns).column position := by
      rw [Chart.column, Chart.column, Array.getElem?_push, if_neg (Nat.ne_of_lt within)]
    rw [opening, opening, Array.extract_push_of_le within, behind]

/-- All columns are what closing makes of what they hold at first. -/
def Opened (start : Nat) (tokens : List Token) (columns : Array (Column grammar)) : Prop :=
  ∀ position column, columns[position]? = some column →
    column = (opening start tokens columns position).close (columns.extract 0 position)

theorem Opened.push {tokens : List Token} {columns : Array (Column grammar)}
    (opened : Opened start tokens columns)
    (last : column = (opening start tokens columns columns.size).close columns) :
    Opened start tokens (columns.push column) := by
  intro position other placed
  rw [Array.getElem?_push] at placed
  split at placed
  · rename_i here
    cases placed
    subst here
    rw [opening_push start tokens columns column (Nat.le_refl _), Array.extract_push_of_le (Nat.le_refl _),
      Array.extract_size]
    exact last
  · have inside := (Array.getElem?_eq_some_iff.mp placed).1
    rw [opening_push start tokens columns column (Nat.le_of_lt inside),
      Array.extract_push_of_le (Nat.le_of_lt inside)]
    exact opened position other placed

/-- What a column of a chart holds at first is drained to the column. -/
theorem Opened.drains {tokens : List Token} {columns : Array (Column grammar)} {ids : List TokenId}
    (opened : Opened start tokens columns) (charted : Charted start ids columns) {position : Nat}
    (inChart : columns[position]? = some column) :
    Drains (columns.extract 0 position) (opening start tokens columns position)
      (List.range (opening start tokens columns position).nodes.size)
      (List.range column.nodes.size) column := by
  have closed := opened position column inChart
  have bound := (charted position column inChart).sound.size_le
  rw [closed] at bound ⊢
  exact close_drains bound

end Column

namespace Chart

open Column

variable {grammar : Grammar} {start : Nat}

theorem foldl_extend_opened (tokens all : List Token) {columns : Array (Column grammar)}
    (opened : Opened start all columns) {position : Nat} (size : columns.size = position + 1)
    (ahead : all.drop position = tokens) : Opened start all (tokens.foldl extend columns) := by
  induction tokens generalizing columns position with
  | nil => exact opened
  | cons token tokens ih =>
    have present : all[position]? = some token := by
      rw [← List.head?_drop, ahead, List.head?_cons]
    have rest : all.drop (position + 1) = tokens := by
      rw [← List.tail_drop, ahead, List.tail_cons]
    have whole : columns.extract 0 (position + 1) = columns := by rw [← size, Array.extract_size]
    have grown : (extend columns token).size = position + 1 + 1 := by
      rw [extend, Array.size_push, size]
    refine ih (opened.push ?_) grown rest
    rw [size, opening, present, Option.map_some, Option.getD_some, whole, Array.back?, size,
      Nat.add_sub_cancel]
    rfl

theorem parse_opened (grammar : Grammar) (start : Nat) (tokens : List Token) :
    Opened start tokens (parse grammar start tokens).columns := by
  have empty : Opened start tokens (#[] : Array (Column grammar)) := by
    intro position column placed
    simp at placed
  exact foldl_extend_opened tokens tokens (empty.push rfl) rfl rfl

/-- Charts are done after a bounded number of turns. Insertions call themselves no more often than there
are places behind the item; at each position the agenda runs empty after one turn for each node; and there
are no more nodes than items with an origin up to there. -/
theorem parse_drains (grammar : Grammar) (start : Nat) (tokens : List Token) :
    let chart := parse grammar start tokens
    chart.positions = tokens.length + 1 ∧
    (∀ position item links (column : Column grammar),
      ∃ calls ≤ (grammar.elements item.rule item.alternative).length - item.index + 1,
        Inserts position item links column calls (column.insert position item links)) ∧
    ∀ position ≤ tokens.length,
      let column := chart.column position
      let opened := opening start tokens chart.columns position
      Drains (chart.columns.extract 0 position) opened (List.range opened.nodes.size)
        (List.range column.nodes.size) column ∧
      column.nodes.size ≤ (position + 1) * capacity grammar ∧
      ∀ node ∈ column.nodes, node.item.origin ≤ position ∧
        node.item.index ≤ (grammar.elements node.item.rule node.item.alternative).length ∧
        (node.item.index = (grammar.elements node.item.rule node.item.alternative).length →
          node.item.matched = false) := by
  obtain ⟨charted, size⟩ := parse_charted grammar start tokens
  refine ⟨size, ?_, fun position within => ?_⟩
  · intro position item links column
    have inserts := insertBefore_inserts position _ item links column rfl
    rwa [List.length_drop] at inserts
  · have inside : position < (parse grammar start tokens).columns.size := by omega
    have inChart := Array.getElem?_eq_getElem inside
    have stage := charted position _ inChart
    have here := size_extract inChart
    rw [Chart.column, inChart, Option.getD_some]
    refine ⟨(parse_opened grammar start tokens).drains charted inChart, ?_, fun node listed => ?_⟩
    · have bound := stage.sound.size_le
      rwa [here] at bound
    · obtain ⟨slot, placed⟩ := Array.mem_iff_getElem?.mp listed
      have valid : node.item.Valid grammar start (tokens.map Token.id) _ :=
        stage.sound.valid slot node placed
      have ordered := valid.ordered
      have fits := valid.inside
      rw [here] at ordered
      refine ⟨ordered, by omega, fun ended => ?_⟩
      cases matched : node.item.matched with
      | false => rfl
      | true =>
        rw [matched, Bool.toNat_true] at fits
        omega

/-- Sums are left-recursive, and a term may end with nothing: ten nodes get a turn each behind a name. -/
theorem parse_drains_expr :
    let grammar := Sample.expr.toOption.getD ⟨[], .initial⟩
    let tokens := [⟨⟨1⟩, "a", 0, .default⟩]
    let chart := parse grammar 0 tokens
    let opened := opening 0 tokens chart.columns 1
    chart.positions = 2 ∧ 1 ≤ tokens.length ∧ (chart.column 1).nodes.size = 10 ∧
      10 ≤ 2 * capacity grammar ∧
      Drains (chart.columns.extract 0 1) opened (List.range opened.nodes.size) (List.range 10)
        (chart.column 1) := by
  intro grammar tokens chart opened
  have size : (chart.column 1).nodes.size = 10 := by decide +kernel
  obtain ⟨positions, _, drained⟩ := parse_drains grammar 0 tokens
  obtain ⟨drains, bound, _⟩ := drained 1 (Nat.le_refl 1)
  exact ⟨positions, Nat.le_refl 1, size, size ▸ bound, size ▸ drains⟩

end Chart

end Typeahead
