import Typeahead.Proofs.Chart.Enumeration

/-!
What a chart says of a position does not depend on the tokens behind it. Each token adds a column, and links
and paths lead to columns at or before their own.
-/

namespace Typeahead

namespace Chart

open Column

/-- The number of nodes in front of one, those of earlier positions first. -/
def serial (chart : Chart) (id : NodeId) : Nat :=
  ((chart.columns.toList.map (·.nodes.size)).take id.position).foldr (· + ·) 0 + id.slot

section Growth

variable {grammar : Grammar} {columns : Array (Column grammar)}

/-- A token brings about a column, and changes none that is there. -/
theorem getElem?_extend {position : Nat} (before : position < columns.size) (token : Token) :
    (extend columns token)[position]? = columns[position]? := by
  rw [extend, Array.getElem?_push, if_neg (Nat.ne_of_lt before)]

theorem getElem?_foldl_extend {position : Nat} (before : position < columns.size) (tokens : List Token) :
    (tokens.foldl extend columns)[position]? = columns[position]? := by
  induction tokens generalizing columns with
  | nil => rfl
  | cons token tokens ih =>
    have grown : position < (extend columns token).size := by
      rw [extend, Array.size_push]
      exact Nat.lt_succ_of_lt before
    rw [List.foldl_cons, ih grown, getElem?_extend before]

end Growth

/-- The charts of two inputs have the same columns up to a position. -/
def Agree (grammar : Grammar) (start last : Nat) (left right : List Token) : Prop :=
  ∀ position, position ≤ last →
    (parse grammar start left).columns[position]? = (parse grammar start right).columns[position]?

variable {grammar : Grammar} {start last : Nat} {left right : List Token} {id : NodeId} {item : Item}

theorem agree_take (grammar : Grammar) (start : Nat) (tokens : List Token) (last : Nat) :
    Agree grammar start last (tokens.take last) tokens := by
  intro position before
  rcases Nat.lt_or_ge tokens.length last with short | long
  · rw [List.take_of_length_le (Nat.le_of_lt short)]
  · have size := (parse_charted grammar start (tokens.take last)).2
    rw [List.length_take, Nat.min_eq_left long] at size
    have whole : tokens.foldl extend #[first grammar start] =
        (tokens.drop last).foldl extend ((tokens.take last).foldl extend #[first grammar start]) := by
      rw [← List.foldl_append, List.take_append_drop]
    show ((tokens.take last).foldl extend #[first grammar start])[position]? =
      (tokens.foldl extend #[first grammar start])[position]?
    rw [whole]
    exact (getElem?_foldl_extend (Nat.lt_of_lt_of_eq (Nat.lt_succ_of_le before) size.symm) _).symm

theorem nodup_allPaths (chart : Chart) (id : NodeId) : (chart.allPaths id).Nodup := by
  apply (pairwise_allPaths chart id).imp
  intro path other smaller same
  rw [same] at smaller
  exact lt_irrefl _ smaller

namespace Agree

theorem symm (agree : Agree grammar start last left right) : Agree grammar start last right left :=
  fun position before => (agree position before).symm

variable (agree : Agree grammar start last left right)

include agree

theorem column {position : Nat} (before : position ≤ last) :
    (parse grammar start left).column position = (parse grammar start right).column position := by
  exact congrArg (·.getD {}) (agree position before)

theorem serial (before : id.position ≤ last) :
    (parse grammar start left).serial id = (parse grammar start right).serial id := by
  have same : ((parse grammar start left).columns.toList.map (·.nodes.size)).take id.position =
      ((parse grammar start right).columns.toList.map (·.nodes.size)).take id.position := by
    apply List.ext_getElem?
    intro position
    rw [List.getElem?_take, List.getElem?_take]
    split
    · rename_i earlier
      rw [List.getElem?_map, List.getElem?_map, Array.getElem?_toList, Array.getElem?_toList]
      exact congrArg (Option.map _) (agree position (by omega))
    · rfl
  rw [Chart.serial, Chart.serial, same]

theorem expectingTerminal {position : Nat} (before : position ≤ last) :
    (parse grammar start left).expectingTerminal position =
      (parse grammar start right).expectingTerminal position :=
  congrArg (fun column : Column grammar =>
    (column.inOrder.filter fun place : Item × Nat => place.1.expectsTerminal grammar).map
      fun place : Item × Nat => NodeId.mk position place.2) (agree.column before)

theorem node? (before : id.position ≤ last) :
    (parse grammar start left).node? id = (parse grammar start right).node? id :=
  congrArg (fun column : Column grammar => column.nodes[id.slot]?) (agree.column before)

theorem links (before : id.position ≤ last) :
    (parse grammar start left).links id = (parse grammar start right).links id := by
  rw [Chart.links, Chart.links, agree.node? before]

theorem expected? (before : id.position ≤ last) :
    (parse grammar start left).expected? id = (parse grammar start right).expected? id :=
  congrArg (fun node : Option Node => node.bind (·.item.next? grammar)) (agree.node? before)

theorem countLinks (fuel : Nat) (before : id.position ≤ last) :
    (parse grammar start left).countLinks fuel id = (parse grammar start right).countLinks fuel id := by
  induction fuel generalizing id with
  | zero => rfl
  | succ fuel ih =>
    rw [Chart.countLinks, Chart.countLinks, agree.links before]
    cases first : (parse grammar start right).links id with
    | nil => rfl
    | cons link others =>
      have listed : link ∈ (parse grammar start right).links id := by
        rw [first]
        exact List.mem_cons_self
      obtain ⟨_, _, _, _, lastMatch⟩ := exists_lastMatch listed
      exact congrArg (1 + ·) (ih (Nat.le_trans lastMatch.before before))

theorem parsedCount (before : id.position ≤ last) :
    (parse grammar start left).parsedCount id = (parse grammar start right).parsedCount id := by
  have bound : (parse grammar start left).linkBound id = (parse grammar start right).linkBound id := by
    rw [linkBound, linkBound, agree.node? before]
    rfl
  rw [Chart.parsedCount, Chart.parsedCount, bound, agree.countLinks _ before]

theorem level? (before : id.position ≤ last) :
    (parse grammar start left).level? id = (parse grammar start right).level? id := by
  rw [Chart.level?, Chart.level?, agree.node? before, agree.parsedCount before]
  rfl

theorem simpleClimb {path : Path} (before : id.position ≤ last)
    (climb : (parse grammar start left).SimpleClimb id path) :
    (parse grammar start right).SimpleClimb id path := by
  induction path generalizing id with
  | nil => cases climb.begins
  | cons level path ih =>
    cases climb.begins
    cases path with
    | nil =>
      obtain ⟨shown, isRoot⟩ := simpleClimb_singleton.mp climb
      exact simpleClimb_singleton.mpr ⟨by rw [← agree.level? before, shown], isRoot⟩
    | cons next path =>
      obtain ⟨⟨shown, inner, awaits, apart⟩, outer⟩ := simpleClimb_cons_cons.mp climb
      have valid := (parse_charted grammar start left).1.valid (level?_eq_some shown).2.found
      have earlier : next.node.position ≤ last := by
        rw [awaits.position]
        exact Nat.le_trans valid.ordered before
      exact simpleClimb_cons_cons.mpr ⟨⟨by rw [← agree.level? before, shown], inner,
        ⟨awaits.position, awaits.awaited⟩, apart⟩, ih earlier outer⟩

theorem allPaths (before : id.position ≤ last) :
    (parse grammar start left).allPaths id = (parse grammar start right).allPaths id := by
  refine List.Perm.eq_of_pairwise ?_ (pairwise_allPaths _ id) (pairwise_allPaths _ id) ?_
  · intro path other _ _ smaller larger
    exact (lt_asymm smaller larger).elim
  · rw [List.perm_ext_iff_of_nodup (nodup_allPaths _ id) (nodup_allPaths _ id)]
    intro path
    rw [mem_allPaths, mem_allPaths]
    exact ⟨agree.simpleClimb before, agree.symm.simpleClimb before⟩

theorem paths (before : id.position ≤ last) (limit : Nat) :
    (parse grammar start left).paths limit id = (parse grammar start right).paths limit id := by
  rw [paths_eq_take, paths_eq_take, agree.allPaths before]

end Agree

/-- What a chart says of a position is what the chart of the tokens in front of it says: a token leaves the
columns that are there as they are, and neither a column nor what is found from its nodes on depends on
what comes behind it. -/
theorem parse_prefix (grammar : Grammar) (start last : Nat) (tokens : List Token) :
    let front := parse grammar start (tokens.take last)
    let whole := parse grammar start tokens
    (∀ (columns : Array (Column grammar)) token position, position < columns.size →
      (extend columns token)[position]? = columns[position]?) ∧
    (∀ position, position ≤ last → front.column position = whole.column position ∧
      front.expectingTerminal position = whole.expectingTerminal position) ∧
    ∀ id, id.position ≤ last →
      front.serial id = whole.serial id ∧ front.node? id = whole.node? id ∧
        front.links id = whole.links id ∧ front.expected? id = whole.expected? id ∧
        front.parsedCount id = whole.parsedCount id ∧
        ∀ limit, front.paths limit id = whole.paths limit id := by
  have agree := agree_take grammar start tokens last
  refine ⟨fun columns token position before => getElem?_extend before token,
    fun position before => ⟨agree.column before, ?_⟩, fun id before => ⟨agree.serial before,
      agree.node? before, agree.links before, agree.expected? before, agree.parsedCount before,
      agree.paths before⟩⟩
  exact agree.expectingTerminal before

/-- Behind `f(a`, what may come next and where it leads is the same with a comma to follow. -/
theorem parse_prefix_call :
    let tokens := [⟨⟨1⟩, "f", 0, .default⟩, ⟨⟨2⟩, "(", 1, .default⟩, ⟨⟨1⟩, "a", 2, .default⟩,
      ⟨⟨4⟩, ",", 3, .default⟩]
    let front := parse Sample.callGrammar 0 (tokens.take 3)
    let whole := parse Sample.callGrammar 0 tokens
    front.columns.size = 4 ∧ whole.columns.size = 5 ∧ 3 ≤ 3 ∧
      front.expectingTerminal 3 = whole.expectingTerminal 3 ∧
      front.paths 256 ⟨3, 2⟩ = whole.paths 256 ⟨3, 2⟩ ∧
      (whole.paths 256 ⟨3, 2⟩).map (·.map Level.node) = [[⟨3, 2⟩, ⟨3, 1⟩, ⟨2, 1⟩]] := by
  intro tokens front whole
  obtain ⟨_, columns, found⟩ := parse_prefix Sample.callGrammar 0 3 tokens
  obtain ⟨_, _, _, _, _, paths⟩ := found ⟨3, 2⟩ (Nat.le_refl 3)
  exact ⟨by decide +kernel, by decide +kernel, Nat.le_refl 3, (columns 3 (Nat.le_refl 3)).2, paths 256,
    by decide +kernel⟩

end Chart

end Typeahead
