import Typeahead.Proofs.Chart.Insertion

/-!
A column has no more nodes than there are items whose origins are positions up to its own.
-/

namespace Typeahead

namespace Item

/-- The places of an alternative with `count` elements, each with whether the element there has
occurred. -/
def places (count : Nat) : List (Nat × Bool) :=
  (List.range (count + 1)).map (·, false) ++ (List.range count).map (·, true)

theorem length_places (count : Nat) : (places count).length = 2 * count + 1 := by
  simp only [places, List.length_append, List.length_map, List.length_range]
  omega

theorem mem_places {count index : Nat} {matched : Bool} (inside : index + matched.toNat ≤ count) :
    (index, matched) ∈ places count := by
  cases matched with
  | false =>
    refine List.mem_append_left _ (List.mem_map_of_mem (f := (·, false)) (List.mem_range.mpr ?_))
    simp only [Bool.toNat_false] at inside
    omega
  | true =>
    refine List.mem_append_right _ (List.mem_map_of_mem (f := (·, true)) (List.mem_range.mpr ?_))
    simp only [Bool.toNat_true] at inside
    omega

def ofAlternative (rule origin : Nat) (alternative : Alternative × Nat) : List Item :=
  (places alternative.1.elements.length).map fun place =>
    ⟨rule, alternative.2, place.1, place.2, origin⟩

def ofRule (origin : Nat) (rule : Rule × Nat) : List Item :=
  rule.1.alternatives.zipIdx.flatMap (ofAlternative rule.2 origin)

def withOrigin (grammar : Grammar) (origin : Nat) : List Item :=
  grammar.rules.zipIdx.flatMap (ofRule origin)

theorem length_flatMap_zipIdx {α β : Type} (size : α → Nat) (parts : α × Nat → List β)
    (each : ∀ x, (parts x).length = size x.1) (xs : List α) :
    (xs.zipIdx.flatMap parts).length = (xs.map size).foldr (· + ·) 0 := by
  have fronts : (xs.zipIdx.map fun x => size x.1) = (xs.zipIdx.map Prod.fst).map size := by
    rw [List.map_map]
    rfl
  rw [List.length_flatMap, List.map_congr_left fun x _ => each x, fronts, List.zipIdx_map_fst]
  rfl

theorem length_ofAlternative (rule origin : Nat) (alternative : Alternative × Nat) :
    (ofAlternative rule origin alternative).length = 2 * alternative.1.elements.length + 1 := by
  rw [ofAlternative, List.length_map, length_places]

theorem length_withOrigin (grammar : Grammar) (origin : Nat) :
    (withOrigin grammar origin).length = Column.capacity grammar :=
  length_flatMap_zipIdx _ _ (fun rule => length_flatMap_zipIdx _ _
    (length_ofAlternative rule.2 origin) rule.1.alternatives) grammar.rules

theorem Valid.mem_withOrigin {grammar : Grammar} {start position : Nat} {ids : List TokenId}
    {item : Item} (valid : item.Valid grammar start ids position) :
    item ∈ withOrigin grammar item.origin := by
  have declared := valid.declared
  have inside := valid.inside
  simp only [Grammar.alternatives] at declared
  cases known : grammar.rules[item.rule]? with
  | none => simp [known] at declared
  | some rule =>
    simp only [known, Option.map_some, Option.getD_some] at declared
    have placed := List.getElem?_eq_getElem declared
    simp only [Grammar.elements, Grammar.alternatives, known, Option.map_some, Option.getD_some,
      placed] at inside
    refine List.mem_flatMap.mpr ⟨(rule, item.rule), List.mem_zipIdx_iff_getElem?.mpr known, ?_⟩
    refine List.mem_flatMap.mpr ⟨(_, item.alternative), List.mem_zipIdx_iff_getElem?.mpr placed, ?_⟩
    exact List.mem_map.mpr ⟨(item.index, item.matched), mem_places inside, rfl⟩

end Item

namespace Column

variable {grammar : Grammar} {column : Column grammar} {earlier : Array (Column grammar)}
  {ids : List TokenId} {start : Nat}

theorem nodup_items (column : Column grammar) : (column.nodes.toList.map Node.item).Nodup := by
  rw [List.nodup_iff_injective_getElem]
  intro left right same
  simp only [List.getElem_map, Array.getElem_toList] at same
  have insideLeft : left.val < column.nodes.size := by simpa using left.isLt
  have insideRight : right.val < column.nodes.size := by simpa using right.isLt
  exact Fin.ext (slot_unique (Array.getElem?_eq_getElem insideLeft)
    (Array.getElem?_eq_getElem insideRight) same)

theorem Sound.size_le (sound : column.Sound start ids earlier) :
    column.nodes.size ≤ (earlier.size + 1) * capacity grammar := by
  have included : column.nodes.toList.map Node.item ⊆
      (List.range (earlier.size + 1)).flatMap (Item.withOrigin grammar) := by
    intro item member
    obtain ⟨node, inColumn, rfl⟩ := List.mem_map.mp member
    obtain ⟨slot, placed⟩ := Array.mem_iff_getElem?.mp (Array.mem_toList_iff.mp inColumn)
    have valid := sound.valid slot node placed
    exact List.mem_flatMap.mpr ⟨node.item.origin,
      List.mem_range.mpr (Nat.lt_succ_of_le valid.ordered), valid.mem_withOrigin⟩
  have bound := (List.subperm_of_subset column.nodup_items included).length_le
  have constant : ∀ origins : List Nat,
      (origins.flatMap (Item.withOrigin grammar)).length = origins.length * capacity grammar := by
    intro origins
    simp [List.length_flatMap, Item.length_withOrigin]
  rw [constant, List.length_range, List.length_map, Array.length_toList] at bound
  exact bound

end Column

end Typeahead
