import Typeahead.Proofs.Chart.Capacity
import Typeahead.Proofs.Chart.Climbing
import Typeahead.Proofs.Chart.Paths
import Typeahead.Proofs.Grammar.Renaming

/-!
Charts for grammars that are the same but for the places of their rules. A column holds exactly the items
that are valid at its position, so that both charts have the same items but for the rules, and as many
paths from each.
-/

namespace Typeahead

section Grammars

variable {σ : Equiv.Perm Nat} {grammar other : Grammar} {start position : Nat} {ids : List TokenId}

theorem Grammar.Renamed.sequence_take_eq (renamed : grammar.Renamed σ other)
    (rule alternative index : Nat) :
    Element.sequence other.language ((other.elements (σ rule) alternative).take index) =
      Element.sequence grammar.language ((grammar.elements rule alternative).take index) :=
  Element.Renamed.sequence_eq (List.forall₂_take index (renamed.elements rule alternative))
    renamed.language_eq

/-- Whatever is made of the language of an element's symbol and of its multiplicity is the same. -/
theorem Grammar.Renamed.elim_eq (renamed : grammar.Renamed σ other) (rule alternative index : Nat)
    (made : Language TokenId → Multiplicity → Language TokenId) :
    ((other.element? (σ rule) alternative index).elim 0 fun element =>
        made (element.symbol.language other.language) element.multiplicity) =
      (grammar.element? rule alternative index).elim 0 fun element =>
        made (element.symbol.language grammar.language) element.multiplicity := by
  have related := renamed.element? rule alternative index
  generalize grammar.element? rule alternative index = here at related ⊢
  generalize other.element? (σ rule) alternative index = there at related ⊢
  cases related with
  | none => rfl
  | some related =>
    rw [Option.elim_some, Option.elim_some, related.symbol.language_eq renamed.language_eq,
      related.multiplicity]

theorem Grammar.Renamed.before_eq (renamed : grammar.Renamed σ other) (rule alternative index : Nat) :
    other.before (σ rule) alternative index = grammar.before rule alternative index := by
  rw [before, before, renamed.sequence_take_eq, renamed.elim_eq rule alternative index Multiplicity.ahead]

theorem Grammar.Renamed.begins (renamed : grammar.Renamed σ other) {rule : Nat}
    (begun : grammar.Begins start ids rule position) :
    other.Begins (σ start) ids (σ rule) position := by
  induction begun with
  | start => exact .start
  | @reference rule alternative index origin position target element _ placed refers ordered within
      matched ih =>
    have related := renamed.element? rule alternative index
    rw [placed] at related
    rw [← renamed.before_eq] at matched
    generalize there : other.element? (σ rule) alternative index = found at related
    cases related with
    | some related =>
      exact .reference ih there (by rw [related.symbol.target, refers]; rfl) ordered within matched

namespace Item

def renamed (σ : Nat → Nat) (item : Item) : Item := { item with rule := σ item.rule }

variable {item : Item}

theorem renamed_injective {σ : Nat → Nat} (injective : σ.Injective) : (renamed σ).Injective := by
  intro left right same
  cases left
  cases right
  simp only [renamed, mk.injEq] at same ⊢
  exact ⟨injective same.1, same.2⟩

theorem renamed_symm (σ : Equiv.Perm Nat) (item : Item) : (item.renamed σ.symm).renamed σ = item := by
  rw [renamed, renamed, σ.apply_symm_apply]

theorem next?_renamed (same : grammar.Renamed σ other) (item : Item) :
    Option.Rel (Element.Renamed σ) (item.next? grammar) ((item.renamed σ).next? other) := by
  have related := same.element? item.rule item.alternative item.index
  rw [next?, next?, element?, element?, renamed]
  generalize grammar.element? item.rule item.alternative item.index = here at related ⊢
  generalize other.element? (σ item.rule) item.alternative item.index = there at related ⊢
  cases related with
  | none => exact .none
  | some related =>
    rw [Option.filter_some, Option.filter_some, related.multiplicity]
    split
    · exact .some related
    · exact .none

theorem awaited?_renamed (same : grammar.Renamed σ other) (item : Item) :
    (item.renamed σ).awaited? other = (item.awaited? grammar).map σ := by
  have related := next?_renamed same item
  rw [awaited?, awaited?]
  generalize item.next? grammar = here at related ⊢
  generalize (item.renamed σ).next? other = there at related ⊢
  cases related with
  | none => rfl
  | some related => exact related.symbol.target

theorem expectsTerminal_renamed (same : grammar.Renamed σ other) (item : Item) :
    (item.renamed σ).expectsTerminal other = item.expectsTerminal grammar := by
  have related := next?_renamed same item
  rw [expectsTerminal, expectsTerminal]
  generalize item.next? grammar = here at related ⊢
  generalize (item.renamed σ).next? other = there at related ⊢
  cases related with
  | none => rfl
  | some related => exact related.symbol.isTerminal_eq

theorem consumed_renamed (same : grammar.Renamed σ other) (item : Item) :
    (item.renamed σ).consumed other other.language = item.consumed grammar grammar.language := by
  rw [consumed, consumed, element?, element?, renamed, same.sequence_take_eq,
    same.elim_eq item.rule item.alternative item.index Multiplicity.begun]

theorem Valid.renamed (valid : item.Valid grammar start ids position) (same : grammar.Renamed σ other) :
    (item.renamed σ).Valid other (σ start) ids position where
  declared := by
    rw [Item.renamed, same.length_alternatives]
    exact valid.declared
  inside := by
    have size := (same.elements item.rule item.alternative).length_eq
    rw [Item.renamed, ← size]
    exact valid.inside
  begins := same.begins valid.begins
  ordered := valid.ordered
  within := valid.within
  matched := by
    rw [consumed_renamed same]
    exact valid.matched

theorem valid_renamed_iff (same : grammar.Renamed σ other) :
    (item.renamed σ).Valid other (σ start) ids position ↔ item.Valid grammar start ids position := by
  refine ⟨fun valid => ?_, fun valid => valid.renamed same⟩
  have back := valid.renamed same.symm
  rwa [σ.symm_apply_apply, Item.renamed, Item.renamed, σ.symm_apply_apply] at back

end Item

end Grammars

namespace Column

variable {grammar : Grammar} {columns : Array (Column grammar)} {start position : Nat}
  {ids : List TokenId} {item : Item}

/-- What an item is valid for, it is reached by. -/
theorem Reads.contains (reads : Reads start ids columns)
    (valid : item.Valid grammar start ids position) : ContainsAt columns position item [] := by
  have runs := reads.runs_language
  obtain ⟨front, inFront, last, inLast, whole⟩ := Language.mem_mul.mp valid.matched
  obtain ⟨middle, before, behind, rfl, rfl⟩ := span_split ids valid.ordered valid.within whole
  have inside : item.index ≤ (grammar.elements item.rule item.alternative).length :=
    (Nat.le_add_right ..).trans valid.inside
  have upTo := reads.passes_all runs _ ((grammar.elements item.rule item.alternative).drop item.index)
    (reads.begins valid.begins item.alternative valid.declared) rfl (by simp [Item.start]) before
    (Nat.le_trans behind valid.within) inFront
  rw [List.length_take, Nat.min_eq_left inside] at upTo
  simp only [Item.start, Nat.zero_add] at upTo
  obtain ⟨rule, alternative, index, matched, origin⟩ := item
  cases matched with
  | false =>
    have ended := eq_of_span_eq_nil behind valid.within ((Language.mem_one _).mp inLast)
    exact ended ▸ upTo
  | true =>
    cases placed : grammar.element? rule alternative index with
    | none =>
      simp only [if_true, Item.element?, placed, Option.elim_none] at inLast
      exact (Language.notMem_zero _ inLast).elim
    | some element =>
      simp only [if_true, Item.element?, placed, Option.elim_some] at inLast
      exact reads.occurs runs upTo rfl placed behind valid.within inLast

end Column

namespace Chart

def items (chart : Chart) (position : Nat) : List Item :=
  (chart.column position).nodes.toList.map Node.item

theorem mem_items {chart : Chart} {position : Nat} {item : Item} :
    item ∈ chart.items position ↔
      ∃ slot, Column.itemAt? chart.columns ⟨position, slot⟩ = some item := by
  simp only [items, itemAt?_columns, node?, List.mem_map, Array.mem_toList_iff, Array.mem_iff_getElem?,
    Option.map_eq_some_iff]
  constructor
  · rintro ⟨node, ⟨slot, placed⟩, same⟩
    exact ⟨slot, node, placed, same⟩
  · rintro ⟨slot, node, placed, same⟩
    exact ⟨node, ⟨slot, placed⟩, same⟩

/-- The items of a chart at a position are those that are valid there. -/
theorem mem_items_parse (grammar : Grammar) (start : Nat) (tokens : List Token) (position : Nat)
    (item : Item) : item ∈ (parse grammar start tokens).items position ↔
      item.Valid grammar start (tokens.map Token.id) position := by
  have reads := parse_reads grammar start tokens
  rw [mem_items]
  constructor
  · rintro ⟨slot, found⟩
    exact reads.charted.valid found
  · intro valid
    exact Column.itemAt?_of_containsAt (reads.contains valid)

theorem nodup_items (chart : Chart) (position : Nat) : (chart.items position).Nodup :=
  Column.nodup_items _

theorem items_inOrder (chart : Chart) (position : Nat) :
    ((chart.column position).inOrder.map Prod.fst).Perm (chart.items position) := by
  have distinct : ((chart.column position).inOrder.map Prod.fst).Nodup := by
    refine List.pairwise_map.mpr (Std.TreeMap.distinct_keys_toList.imp fun differ same => differ ?_)
    rw [same]
    exact Std.ReflCmp.compare_self
  refine (List.perm_ext_iff_of_nodup distinct (chart.nodup_items position)).mpr fun item => ?_
  simp only [mem_items, List.mem_map, Prod.exists, Column.mem_inOrder, itemAt?_columns, node?]
  constructor
  · rintro ⟨item, slot, placed, rfl⟩
    exact ⟨slot, placed⟩
  · rintro ⟨slot, placed⟩
    exact ⟨item, slot, placed, rfl⟩

theorem level?_of_itemAt? {chart : Chart} {id : NodeId} {item : Item}
    (found : Column.itemAt? chart.columns id = some item) :
    (chart.level? id).map Level.item = (item.next? chart.grammar).map fun _ => item := by
  rw [itemAt?_columns] at found
  obtain ⟨node, placed, rfl⟩ := Option.map_eq_some_iff.mp found
  rw [level?, placed, Option.bind_some, Option.map_map]
  rfl

/-- The levels above an item show the items that await its rule where it began. -/
theorem items_above (chart : Chart) (item : Item) :
    ((chart.above item).map Level.item).Perm ((chart.items item.origin).filter fun waiter =>
      waiter.awaited? chart.grammar == some item.rule) := by
  let awaits := fun waiter : Item => waiter.awaited? chart.grammar == some item.rule
  have placed : (chart.items item.origin).filter awaits =
      (chart.items item.origin).zipIdx.filterMap fun place => Option.guard awaits place.1 := by
    rw [← List.filterMap_eq_filter]
    conv => lhs; rw [← List.zipIdx_map_fst 0 (chart.items item.origin)]
    exact List.filterMap_map
  rw [above]
  refine ((sortByKey_perm _ _).map _).trans (List.Perm.of_eq (Eq.trans ?_ placed.symm))
  simp only [Column.awaiting, Column.waiting_eq, List.filter_filterMap, List.map_filterMap,
    List.filterMap_filterMap]
  refine List.filterMap_congr fun place listed => ?_
  obtain ⟨waiter, slot⟩ := place
  have found : Column.itemAt? chart.columns ⟨item.origin, slot⟩ = some waiter := by
    rw [List.mem_zipIdx_iff_getElem?, List.getElem?_map, Array.getElem?_toList] at listed
    rwa [itemAt?_columns]
  have shown := level?_of_itemAt? found
  cases awaited : waiter.awaited? chart.grammar with
  | none => simp [awaits, awaited, Option.guard]
  | some target =>
    obtain ⟨element, expects, _⟩ := Option.bind_eq_some_iff.mp awaited
    rw [expects, Option.map_some] at shown
    by_cases same : target = item.rule
    · simp [awaits, awaited, same, Option.guard, Option.filter_some, shown]
    · simp [awaits, awaited, same, Option.guard]

/-- Two charts have the same positions, and there the same items but for the places of their rules. -/
structure Twins (σ : Equiv.Perm Nat) (chart other : Chart) : Prop where
  grammar : chart.grammar.Renamed σ other.grammar
  start : other.start = σ chart.start
  size : other.columns.size = chart.columns.size
  items : ∀ position, (other.items position).Perm ((chart.items position).map (Item.renamed σ))

theorem parse_twins {σ : Equiv.Perm Nat} {grammar other : Grammar} (renamed : grammar.Renamed σ other)
    (start : Nat) (tokens : List Token) :
    Twins σ (parse grammar start tokens) (parse other (σ start) tokens) where
  grammar := renamed
  start := rfl
  size := by rw [(parse_charted other (σ start) tokens).2, (parse_charted grammar start tokens).2]
  items position := by
    refine (List.perm_ext_iff_of_nodup (nodup_items ..)
      ((nodup_items ..).map (Item.renamed_injective σ.injective))).mpr fun item => ?_
    rw [mem_items_parse]
    constructor
    · intro valid
      rw [← Item.renamed_symm σ item, Item.valid_renamed_iff renamed] at valid
      exact List.mem_map.mpr ⟨_, (mem_items_parse ..).mpr valid, Item.renamed_symm σ item⟩
    · intro listed
      obtain ⟨item, among, rfl⟩ := List.mem_map.mp listed
      exact ((mem_items_parse ..).mp among).renamed renamed

/-- What depends on keys alone is the same for lists with the same keys, but for the order. -/
theorem perm_map_of_keys {α β γ δ : Type} {key : α → γ} {otherKey : β → γ} {value : α → δ}
    {otherValue : β → δ} {xs : List α} {ys : List β} (same : (xs.map key).Perm (ys.map otherKey))
    (each : ∀ x ∈ xs, ∀ y ∈ ys, key x = otherKey y → value x = otherValue y) :
    (xs.map value).Perm (ys.map otherValue) := by
  induction xs generalizing ys with
  | nil =>
    rw [List.map_nil, List.nil_perm, List.map_eq_nil_iff] at same
    rw [same]
    exact .nil
  | cons x xs ih =>
    rw [List.map_cons] at same
    obtain ⟨y, among, shared⟩ := List.mem_map.mp (same.mem_iff.mp List.mem_cons_self)
    obtain ⟨front, back, rfl⟩ := List.append_of_mem among
    have others : (xs.map key).Perm ((front ++ back).map otherKey) := by
      refine (same.trans ((List.perm_middle.map otherKey).trans ?_)).cons_inv
      rw [List.map_cons, shared]
    have rest := ih others fun x listed y among =>
      each x (List.mem_cons_of_mem _ listed) y
        (List.perm_middle.mem_iff.mpr (List.mem_cons_of_mem _ among))
    rw [List.map_cons, each x List.mem_cons_self y among shared.symm]
    exact (rest.cons _).trans (List.perm_middle.symm.map otherValue)

/-- Levels of two charts that show the same but for the places of rules and nodes. -/
structure Mirrors (σ : Equiv.Perm Nat) (chart other : Chart) (level image : Level) : Prop where
  stands : chart.Stands level
  stands_image : other.Stands image
  position : image.node.position = level.node.position
  item : image.item = level.item.renamed σ

section Mirrors

variable {σ : Equiv.Perm Nat} {chart other : Chart} {level image next nextImage : Level}

theorem Stands.node_eq_iff (stands : chart.Stands level) (nextStands : chart.Stands next) :
    level.node = next.node ↔ level.node.position = next.node.position ∧ level.item = next.item := by
  have found := stands.found
  have nextFound := nextStands.found
  constructor
  · intro same
    rw [same] at found
    exact ⟨congrArg _ same, Option.some.inj (found.symm.trans nextFound)⟩
  · rintro ⟨position, item⟩
    rw [itemAt?_columns] at found nextFound
    obtain ⟨node, placed, shown⟩ := Option.map_eq_some_iff.mp found
    obtain ⟨nextNode, nextPlaced, nextShown⟩ := Option.map_eq_some_iff.mp nextFound
    rw [node?, position] at placed
    rw [node?] at nextPlaced
    have slot := Column.slot_unique placed nextPlaced (by rw [shown, nextShown, item])
    cases sameNode : level.node
    cases nextSame : next.node
    rw [sameNode, nextSame] at position slot
    rw [NodeId.mk.injEq]
    exact ⟨position, slot⟩

theorem Mirrors.node_beq (mirrors : Mirrors σ chart other level image)
    (nextMirrors : Mirrors σ chart other next nextImage) :
    (image.node == nextImage.node) = (level.node == next.node) := by
  rw [Bool.eq_iff_iff, beq_iff_eq, beq_iff_eq, mirrors.stands_image.node_eq_iff nextMirrors.stands_image,
    mirrors.stands.node_eq_iff nextMirrors.stands, mirrors.position, nextMirrors.position, mirrors.item,
    nextMirrors.item, (Item.renamed_injective σ.injective).eq_iff]

theorem Mirrors.isRoot_eq (mirrors : Mirrors σ chart other level image) (twins : Twins σ chart other) :
    other.isRoot image.item = chart.isRoot level.item := by
  rw [isRoot, isRoot, mirrors.item, twins.start, Bool.eq_iff_iff]
  simp [Item.renamed]

theorem Mirrors.any_node_eq {below images : List Level}
    (mirrored : List.Forall₂ (Mirrors σ chart other) below images)
    (nextMirrors : Mirrors σ chart other next nextImage) :
    images.any (·.node == nextImage.node) = below.any (·.node == next.node) := by
  induction mirrored with
  | nil => rfl
  | cons first _ ih =>
    rw [List.any_cons, List.any_cons, ih, first.node_beq nextMirrors]

theorem Twins.above (twins : Twins σ chart other) (item : Item) :
    ((other.above (item.renamed σ)).map Level.item).Perm
      ((chart.above item).map fun level => level.item.renamed σ) := by
  have awaits : ((other.above (item.renamed σ)).map Level.item).Perm
      (((chart.items item.origin).filter fun waiter =>
        waiter.awaited? chart.grammar == some item.rule).map (Item.renamed σ)) := by
    refine (other.items_above _).trans (((twins.items _).filter _).trans (List.Perm.of_eq ?_))
    rw [List.filter_map]
    refine congrArg _ (List.filter_congr fun waiter _ => ?_)
    rw [Function.comp_apply, Item.awaited?_renamed twins.grammar, Item.renamed, Bool.eq_iff_iff]
    simp
  have shown := ((chart.items_above item).map (Item.renamed σ)).symm
  rw [List.map_map] at shown
  exact awaits.trans shown

/-- As many paths go up from a level as from its image. -/
theorem Mirrors.length_climbAll (twins : Twins σ chart other) (mirrors : Mirrors σ chart other level image)
    {below images : List Level} (mirrored : List.Forall₂ (Mirrors σ chart other) below images) (fuel : Nat) :
    (other.climbAll fuel image images).length = (chart.climbAll fuel level below).length := by
  -- a node comes again on one path exactly where its image does on the other
  induction fuel generalizing level image below images with
  | zero => rfl
  | succ fuel ih =>
    rw [climbAll, climbAll, mirrors.isRoot_eq twins]
    split
    · rfl
    · rw [List.length_flatMap, List.length_flatMap, mirrors.item]
      refine (perm_map_of_keys (twins.above level.item)
        fun nextImage imageListed next listed item => ?_).sum_nat
      obtain ⟨standsImage, positionImage, _⟩ := mem_above imageListed
      obtain ⟨stands, position, _⟩ := mem_above listed
      have nextMirrors : Mirrors σ chart other next nextImage :=
        ⟨stands, standsImage, positionImage.trans position.symm, item⟩
      rw [Mirrors.any_node_eq (.cons mirrors mirrored) nextMirrors]
      split
      · rfl
      · exact ih nextMirrors (.cons mirrors mirrored)

theorem Twins.nodes_size (twins : Twins σ chart other) (position : Nat) :
    (other.column position).nodes.size = (chart.column position).nodes.size := by
  have same := (twins.items position).length_eq
  rwa [List.length_map, Chart.items, Chart.items, List.length_map, List.length_map,
    Array.length_toList, Array.length_toList] at same

theorem Twins.size_eq (twins : Twins σ chart other) : other.size = chart.size := by
  have sizes : other.columns.map (·.nodes.size) = chart.columns.map (·.nodes.size) := by
    refine Array.ext (by simpa using twins.size) fun position inOther inside => ?_
    rw [Array.size_map] at inside inOther
    have same := twins.nodes_size position
    rw [column, column, Array.getElem?_eq_getElem inside, Array.getElem?_eq_getElem inOther] at same
    simpa using same
  rw [Chart.size, Chart.size, sizes]

/-- As many paths go up from a node as from the one with the same item. -/
theorem Twins.length_paths (twins : Twins σ chart other) {id image : NodeId} {item : Item}
    (found : Column.itemAt? chart.columns id = some item)
    (imageFound : Column.itemAt? other.columns image = some (item.renamed σ))
    (position : image.position = id.position) (limit : Nat) :
    (other.paths limit image).length = (chart.paths limit id).length := by
  have shown := level?_of_itemAt? found
  have imageShown := level?_of_itemAt? imageFound
  have related := item.next?_renamed twins.grammar
  rw [paths_eq_take, paths_eq_take, List.length_take, List.length_take, allPaths, allPaths]
  congr 1
  cases here : item.next? chart.grammar <;> cases there : (item.renamed σ).next? other.grammar <;>
    rw [here, there] at related <;> cases related
  · simp only [here, there, Option.map_none, Option.map_eq_none_iff] at shown imageShown
    rw [shown, imageShown]
    rfl
  · simp only [here, there, Option.map_some, Option.map_eq_some_iff] at shown imageShown
    obtain ⟨level, known, shows⟩ := shown
    obtain ⟨levelImage, imageKnown, imageShows⟩ := imageShown
    obtain ⟨node, stands⟩ := level?_eq_some known
    obtain ⟨imageNode, imageStands⟩ := level?_eq_some imageKnown
    rw [known, imageKnown, Option.elim_some, Option.elim_some, twins.size_eq]
    exact Mirrors.length_climbAll twins
      ⟨stands, imageStands, by rw [node, imageNode, position], by rw [shows, imageShows]⟩ .nil _

theorem items_expectingTerminal (chart : Chart) (position : Nat) :
    ((chart.expectingTerminal position).map (Column.itemAt? chart.columns)).Perm
      (((chart.items position).filter (·.expectsTerminal chart.grammar)).map some) := by
  have shown : (chart.expectingTerminal position).map (Column.itemAt? chart.columns) =
      (((chart.column position).inOrder.map Prod.fst).filter
        (·.expectsTerminal chart.grammar)).map some := by
    rw [expectingTerminal, List.map_map, List.filter_map, List.map_map]
    refine List.map_congr_left fun place listed => ?_
    rw [Function.comp_apply, Function.comp_apply, itemAt?_columns]
    exact (Column.mem_inOrder _ _ _).mp (List.mem_of_mem_filter listed)
  rw [shown]
  exact ((chart.items_inOrder position).filter _).map some

theorem Twins.expectingTerminal (twins : Twins σ chart other) (position : Nat) :
    ((other.expectingTerminal position).map (Column.itemAt? other.columns)).Perm
      ((chart.expectingTerminal position).map fun id =>
        (Column.itemAt? chart.columns id).map (Item.renamed σ)) := by
  have shown := ((chart.items_expectingTerminal position).map (Option.map (Item.renamed σ))).symm
  rw [List.map_map, List.map_map] at shown
  refine (other.items_expectingTerminal position).trans (.trans ?_ shown)
  refine (((twins.items position).filter _).map some).trans (List.Perm.of_eq ?_)
  rw [List.filter_map, List.map_map]
  refine congrArg _ (List.filter_congr fun item _ => ?_)
  rw [Function.comp_apply, Item.expectsTerminal_renamed twins.grammar]

end Mirrors

end Chart

end Typeahead
