import Typeahead.Proofs.Chart.Links

/-!
What all insertions keep holds of all columns of a chart. One such fact is that nodes that no match leads to
lie where their items began.
-/

namespace Typeahead

namespace Column

variable {grammar : Grammar} {column : Column grammar} {earlier : Array (Column grammar)}
  {position slot : Nat} {item : Item} {links : List Link} {node : Node}

theorem insertBefore_extends (position : Nat) (rest : List Element) (item : Item) (links : List Link)
    (column : Column grammar) : (insertBefore position rest item links column).Extends column := by
  induction rest generalizing item links column with
  | nil => exact add_extends column position item links
  | cons element rest ih =>
    have first := add_extends column position item links
    simp only [insertBefore]
    split
    · exact (ih item.skipped _ _).trans first
    · exact first

theorem foldl_extends {α : Type} (step : Column grammar → α → Column grammar)
    (each : ∀ column x, (step column x).Extends column) (xs : List α) (column : Column grammar) :
    (xs.foldl step column).Extends column := by
  induction xs generalizing column with
  | nil => exact .refl column
  | cons x xs ih => exact (ih _).trans (each column x)

theorem predict_extends (earlier : Array (Column grammar)) (slot : Nat) (item : Item)
    (column : Column grammar) : (column.predict earlier slot item).Extends column := by
  rw [predict]
  split
  · exact .refl column
  · exact (foldl_extends _ (fun column _ => insertBefore_extends _ _ _ _ column) _ _).trans
      (foldl_extends _ (fun column _ => insertBefore_extends _ _ _ _ column) _ _)

/-- What the insertions at a position keep: of items that begin there, of items that a match moves on, and
of items that a node is skipped to. -/
structure Inductive (position : Nat) (holds : Column grammar → Prop) : Prop where
  starts : ∀ column rule alternative, holds column →
    holds (column.insert position (.start rule alternative position) [])
  advances : ∀ column (item : Item) link, holds column →
    holds (column.insert position item.advanced [link])
  skips : ∀ column (slot : Nat) (node : Node), holds column → column.nodes[slot]? = some node →
    holds (column.insert position node.item.skipped node.links)

namespace Inductive

variable {holds : Column grammar → Prop}

theorem foldl {α : Type} {step : Column grammar → α → Column grammar}
    (each : ∀ column x, holds column → holds (step column x)) (xs : List α) (given : holds column) :
    holds (xs.foldl step column) := by
  induction xs generalizing column with
  | nil => exact given
  | cons x xs ih => exact ih (each column x given)

theorem step (kept : Inductive earlier.size holds) (given : holds column) (slot : Nat) :
    holds (column.step earlier slot) := by
  rw [Column.step]
  split
  · exact given
  · rename_i node placed
    split
    · exact foldl (fun column (waiter : Item × Nat) => kept.advances column waiter.1 _) _ given
    · obtain ⟨later, placedLater, same, _⟩ := predict_extends earlier slot node.item column slot node placed
      have predicted : holds (column.predict earlier slot node.item) := by
        rw [predict]
        split
        · exact given
        · exact foldl (fun column _ => kept.advances column node.item _) _
            (foldl (fun column alternative => kept.starts column _ alternative) _ given)
      rw [skip]
      split
      · exact predicted
      · split
        · have passed := kept.skips _ slot later predicted placedLater
          rw [same] at passed
          rwa [placedLater]
        · exact predicted

theorem closeFrom (kept : Inductive earlier.size holds) (fuel slot : Nat) (given : holds column) :
    holds (column.closeFrom earlier fuel slot) := by
  induction fuel generalizing slot column with
  | zero => exact given
  | succ fuel ih =>
    rw [Column.closeFrom]
    split
    · exact ih (slot + 1) (kept.step given slot)
    · exact given

theorem scan (kept : Inductive earlier.size holds)
    (empty : ∀ column : Column grammar, column.nodes = #[] → holds column) (id : TokenId)
    (previous : Column grammar) : holds (Column.scan earlier id previous) :=
  foldl (fun column (place : Item × Nat) => kept.advances column place.1 _) _ (empty _ rfl)

end Inductive

theorem extends_inductive (position : Nat) (column : Column grammar) :
    Inductive position fun later => later.Extends column where
  starts later _ _ extended := (insertBefore_extends _ _ _ _ later).trans extended
  advances later _ _ extended := (insertBefore_extends _ _ _ _ later).trans extended
  skips later _ _ extended _ := (insertBefore_extends _ _ _ _ later).trans extended

end Column

namespace Chart

open Column

variable {grammar : Grammar}

theorem foldl_extend_holds {holds : Nat → Column grammar → Prop}
    (kept : ∀ position, Inductive position (holds position))
    (empty : ∀ position (column : Column grammar), column.nodes = #[] → holds position column)
    (tokens : List Token) (columns : Array (Column grammar))
    (given : ∀ position column, columns[position]? = some column → holds position column) :
    ∀ position column, (tokens.foldl extend columns)[position]? = some column →
      holds position column := by
  induction tokens generalizing columns with
  | nil => exact given
  | cons token tokens ih =>
    refine ih (extend columns token) fun position column placed => ?_
    rw [extend, Array.getElem?_push] at placed
    split at placed
    · rename_i last
      cases placed
      rw [last]
      exact (kept columns.size).closeFrom _ 0 ((kept columns.size).scan (empty columns.size) token.id _)
    · exact given position column placed

/-- What all insertions keep holds of all columns of a chart. -/
theorem parse_holds {holds : Nat → Column grammar → Prop}
    (kept : ∀ position, Inductive position (holds position))
    (empty : ∀ position (column : Column grammar), column.nodes = #[] → holds position column)
    (start : Nat) (tokens : List Token) :
    ∀ position column, (parse grammar start tokens).columns[position]? = some column →
      holds position column := by
  refine foldl_extend_holds kept empty tokens _ fun position column placed => ?_
  obtain ⟨first, rfl⟩ : position = 0 ∧ Chart.first grammar start = column := by
    cases position with
    | zero => exact ⟨rfl, Option.some.inj placed⟩
    | succ position => simp at placed
  subst first
  have first : Inductive (#[] : Array (Column grammar)).size (holds 0) := kept 0
  exact first.closeFrom _ 0
    (Inductive.foldl (fun column alternative => first.starts column start alternative) _
      (empty 0 _ rfl))

end Chart

namespace Column

variable {grammar : Grammar} {column : Column grammar} {position slot : Nat} {item : Item}
  {links : List Link} {node : Node}

/-- Nodes that no match leads to lie where their items began. -/
def Rooted (position : Nat) (column : Column grammar) : Prop :=
  ∀ (slot : Nat) (node : Node), column.nodes[slot]? = some node → node.links = [] →
    node.item.origin = position

theorem Rooted.add (rooted : column.Rooted position) (given : links = [] → item.origin = position)
    (place : Nat) : (column.add place item links).1.Rooted position := by
  intro slot node placed unlinked
  cases known : column.slots[item]? with
  | none =>
    rw [(add_absent known place links).1, Array.getElem?_push] at placed
    split at placed
    · cases placed
      refine given (List.eq_nil_iff_forall_not_mem.mpr fun link member => ?_)
      have kept := (Node.mem_addLinks (Node.mk item []) links link).mpr (.inl member)
      rw [unlinked] at kept
      cases kept
    · exact rooted slot node placed unlinked
  | some slot' =>
    obtain ⟨old, placedOld, sameOld⟩ := node_of_slot known
    obtain ⟨later, placedLater, same, more⟩ := add_extends column place item links slot'  old placedOld
    by_cases here : slot = slot'
    · subst here
      rw [placed] at placedLater
      cases placedLater
      rw [unlinked, List.subset_nil] at more
      rw [same]
      exact rooted slot old placedOld more
    · rw [(add_present placedOld sameOld place links).1, Array.getElem?_modify,
        if_neg (Ne.symm here)] at placed
      exact rooted slot node placed unlinked

theorem Rooted.insertBefore (rest : List Element) (rooted : column.Rooted position)
    (given : links = [] → item.origin = position) (place : Nat) :
    (insertBefore place rest item links column).Rooted position := by
  induction rest generalizing item links column with
  | nil => exact rooted.add given place
  | cons element rest ih =>
    have first := rooted.add given place
    simp only [Column.insertBefore]
    split
    · rename_i goesOn
      refine ih first fun none => ?_
      rw [none] at goesOn
      cases goesOn
    · exact first

theorem Rooted.insert (rooted : column.Rooted position) (given : links = [] → item.origin = position)
    (place : Nat) : (column.insert place item links).Rooted position := rooted.insertBefore _ given place

theorem rooted_inductive (position : Nat) :
    Inductive position fun column : Column grammar => column.Rooted position where
  starts _ _ _ rooted := rooted.insert (fun _ => rfl) position
  advances _ _ _ rooted := rooted.insert (fun none => by cases none) position
  skips _ slot node rooted placed :=
    have given : node.links = [] → node.item.skipped.origin = position := rooted slot node placed
    rooted.insert given position

end Column

namespace Chart

open Column

variable {grammar : Grammar} {start : Nat} {tokens : List Token}

theorem origin_of_unlinked {id : NodeId} {item : Item}
    (found : itemAt? (parse grammar start tokens).columns id = some item)
    (unlinked : (parse grammar start tokens).links id = []) : item.origin = id.position := by
  obtain ⟨column, node, inChart, placed, rfl⟩ := itemAt?_eq_some_iff.mp found
  have empty : ∀ position (column : Column grammar), column.nodes = #[] → column.Rooted position := by
    intro _ _ none _ _ placed
    simp [none] at placed
  refine parse_holds rooted_inductive empty start tokens _ _ inChart _ _ placed ?_
  refine List.eq_nil_iff_forall_not_mem.mpr fun link member => ?_
  have listed := (mem_links _ id link).mpr ⟨column, node, inChart, placed, member⟩
  rw [unlinked] at listed
  cases listed

theorem linkBound_eq {id : NodeId} {item : Item}
    (found : itemAt? (parse grammar start tokens).columns id = some item) :
    (parse grammar start tokens).linkBound id =
      id.position * (2 * (grammar.elements item.rule item.alternative).length + 1) + 2 * item.index +
        item.matched.toNat := by
  rw [itemAt?_columns] at found
  obtain ⟨node, placed, rfl⟩ := Option.map_eq_some_iff.mp found
  rw [linkBound, placed]
  rfl

/-- A link leads back to an earlier position, or else to an earlier place of the alternative. -/
theorem linkBound_lt {id : NodeId} {link : Link}
    (linked : link ∈ (parse grammar start tokens).links id) :
    (parse grammar start tokens).linkBound link.previous < (parse grammar start tokens).linkBound id := by
  obtain ⟨item, previous, element, found, last⟩ := exists_lastMatch linked
  have rule : previous.rule = item.rule := last.skips.same_alternative.1
  have alternative : previous.alternative = item.alternative := last.skips.same_alternative.2.1
  have upTo : previous.index ≤ item.index := last.skips.index_le
  have inside : previous.index + previous.matched.toNat ≤
      (grammar.elements previous.rule previous.alternative).length :=
    ((parse_charted grammar start tokens).1.valid last.found).inside
  rw [linkBound_eq found, linkBound_eq last.found, ← rule, ← alternative]
  rcases Nat.lt_or_eq_of_le last.before with earlier | here
  · have wide := Nat.mul_le_mul_right
      (2 * (grammar.elements previous.rule previous.alternative).length + 1) (Nat.succ_le_of_lt earlier)
    rw [Nat.succ_mul] at wide
    omega
  · have fresh : previous.matched = false := by
      by_contra occurred
      exact Nat.ne_of_lt (last.lt_of_matched (by simpa using occurred)) here
    rw [here, fresh, Bool.toNat_false]
    rcases Nat.lt_or_eq_of_le upTo with behind | same
    · omega
    · have occurred : item.matched = true := by
        rw [last.skips.eq_of_index (Nat.le_of_eq same.symm)]
        rfl
      rw [occurred, same]
      exact Nat.lt_succ_self _

theorem linkBound_pos {id : NodeId} {link : Link}
    (linked : link ∈ (parse grammar start tokens).links id) :
    0 < (parse grammar start tokens).linkBound id := Nat.zero_lt_of_lt (linkBound_lt linked)

theorem links_of_parsedCount {id : NodeId} (none : (parse grammar start tokens).parsedCount id = 0) :
    (parse grammar start tokens).links id = [] := by
  cases linked : (parse grammar start tokens).links id with
  | nil => rfl
  | cons link links =>
    have positive := linkBound_pos (show link ∈ (parse grammar start tokens).links id by
      rw [linked]
      exact List.mem_cons_self)
    obtain ⟨fuel, bound⟩ := Nat.exists_eq_add_of_lt positive
    rw [parsedCount, bound, Nat.zero_add, countLinks, linked] at none
    dsimp only at none
    omega

end Chart

end Typeahead
