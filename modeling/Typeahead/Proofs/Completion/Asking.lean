import Typeahead.Proofs.Chart.Enumeration
import Typeahead.Proofs.Completion.Range

/-!
From each node that expects an element there is a way up to the start rule. So each terminal that may come
next is a site that the source is asked about.
-/

namespace Typeahead

namespace Chart

open Column

variable {chart : Chart} {level next : Level} {path : Path} {id : NodeId} {item : Item}
  {element : Element} {grammar : Grammar} {start position limit : Nat} {tokens : List Token}

theorem SimpleClimb.from_level (climb : chart.SimpleClimb id path) (listed : level ∈ path) :
    ∃ outer, chart.SimpleClimb level.node (level :: outer) := by
  induction path generalizing id with
  | nil => cases listed
  | cons first rest ih =>
    have same : first.node = id := Option.some.inj climb.begins
    subst same
    rcases List.mem_cons.mp listed with rfl | further
    · exact ⟨rest, climb⟩
    · cases rest with
      | nil => cases further
      | cons second rest => exact ih (simpleClimb_cons_cons.mp climb).2 further

/-- A level goes on with a climb from a level that awaits it. Where that climb comes by the level itself, it
is cut there. -/
theorem SimpleClimb.extend (climb : chart.SimpleClimb next.node (next :: path))
    (shown : chart.level? level.node = some level) (awaits : chart.Awaits next level) :
    ∃ outer, chart.SimpleClimb level.node (level :: outer) := by
  by_cases isRoot : chart.isRoot level.item = true
  · exact ⟨[], simpleClimb_singleton.mpr ⟨shown, isRoot⟩⟩
  · by_cases onPath : level.node ∈ (next :: path).map Level.node
    · obtain ⟨again, listed, same⟩ := List.mem_map.mp onPath
      have shownAgain := level?_eq_self_iff.mpr (climb.shown again listed)
      rw [same, shown] at shownAgain
      cases shownAgain
      exact climb.from_level listed
    · exact ⟨next :: path, simpleClimb_cons_cons.mpr
        ⟨⟨shown, by simpa using isRoot, awaits, onPath⟩, climb⟩⟩

theorem exists_level (found : itemAt? chart.columns id = some item)
    (expects : item.next? chart.grammar = some element) :
    ∃ level, chart.level? id = some level ∧ level.node = id ∧ level.item = item ∧
      level.element = element := by
  have shown := level?_of_itemAt? found
  rw [expects, Option.map_some] at shown
  obtain ⟨level, shown, same⟩ := Option.map_eq_some_iff.mp shown
  obtain ⟨node, stands⟩ := level?_eq_some shown
  have expected := stands.expects
  rw [same, expects] at expected
  exact ⟨level, shown, node, same, (Option.some.inj expected).symm⟩

theorem exists_climb_of_begins {rule : Nat}
    (begins : grammar.Begins start (tokens.map Token.id) rule position)
    (shown : (parse grammar start tokens).level? level.node = some level) (same : level.item.rule = rule)
    (origin : level.item.origin = position) :
    ∃ outer, (parse grammar start tokens).SimpleClimb level.node (level :: outer) := by
  have reads := parse_reads grammar start tokens
  -- the rule may begin there because one that may begin earlier awaits it: that is the order of the induction
  induction begins generalizing level with
  | start =>
    have isRoot : (parse grammar start tokens).isRoot level.item = true := by
      simp [isRoot, same, origin, parse]
    exact ⟨[], simpleClimb_singleton.mpr ⟨shown, isRoot⟩⟩
  | @reference _ _ _ _ position _ _ outer placed refers ordered within matched ih =>
    obtain ⟨occurred, contained, expects⟩ :=
      reads.reaches (reads.begins outer) placed ordered within matched
    obtain ⟨slot, found⟩ := itemAt?_of_containsAt contained
    obtain ⟨next, shownNext, node, item, _⟩ :=
      @exists_level (parse grammar start tokens) ⟨position, slot⟩ _ _ found expects
    rw [← node] at shownNext
    obtain ⟨path, climb⟩ := ih shownNext (by rw [item]) (by rw [item])
    have awaits : (parse grammar start tokens).Awaits next level := by
      refine ⟨by rw [node, origin], ?_⟩
      rw [item, same]
      exact Item.awaited?_of_target expects refers
    exact climb.extend shown awaits

theorem paths_ne_nil (expected : id ∈ (parse grammar start tokens).expectingTerminal position)
    (positive : 1 ≤ limit) : (parse grammar start tokens).paths limit id ≠ [] := by
  obtain ⟨_, item, found, terminal⟩ := (mem_expectingTerminal _ _ _).mp expected
  obtain ⟨element, expects, _⟩ := (Option.any_eq_true _ _).mp terminal
  obtain ⟨level, shown, rfl, same, _⟩ := exists_level found expects
  have valid : item.Valid grammar start (tokens.map Token.id) level.node.position :=
    (parse_charted grammar start tokens).1.valid found
  obtain ⟨outer, climb⟩ := exists_climb_of_begins valid.begins shown (by rw [same]) (by rw [same])
  have listed := mem_allPaths.mpr climb
  rw [paths_eq_take]
  intro none
  rcases List.take_eq_nil_iff.mp none with zero | empty
  · omega
  · rw [empty] at listed
    cases listed

theorem level_of_mem_paths (climbed : path ∈ chart.paths limit id)
    (found : itemAt? chart.columns id = some item) :
    ∃ level outer, path = level :: outer ∧ chart.Stands level ∧ level.node = id ∧ level.item = item := by
  have climb := simpleClimb_of_mem_paths climbed
  obtain ⟨level, first, rfl⟩ := Option.map_eq_some_iff.mp climb.begins
  obtain ⟨outer, rfl⟩ := List.head?_eq_some_iff.mp first
  obtain ⟨stands, _⟩ := climb.shown level List.mem_cons_self
  exact ⟨level, outer, rfl, stands, rfl, Option.some.inj (stands.found.symm.trans found)⟩

theorem leftContext_of_next? (found : itemAt? (parse grammar start tokens).columns id = some item)
    (expects : item.next? grammar = some element) :
    grammar.LeftContext start (tokens.map Token.id) item.rule item.alternative item.index id.position := by
  have valid : item.Valid grammar start (tokens.map Token.id) id.position :=
    (parse_charted grammar start tokens).1.valid found
  exact ⟨item.origin, valid.begins, valid.ordered, valid.within,
    Item.consumed_before expects valid.matched⟩

/-- A terminal that may come next is expected by a node. -/
theorem exists_expecting {rule alternative index : Nat}
    (placed : grammar.element? rule alternative index = some element)
    (terminal : element.symbol.isTerminal = true)
    (context : grammar.LeftContext start (tokens.map Token.id) rule alternative index position) :
    ∃ id ∈ (parse grammar start tokens).expectingTerminal position, ∃ item,
      itemAt? (parse grammar start tokens).columns id = some item ∧
        item.rule = rule ∧ item.alternative = alternative ∧ item.index = index := by
  have reads := parse_reads grammar start tokens
  obtain ⟨origin, begins, ordered, within, matched⟩ := context
  obtain ⟨occurred, contained, expects⟩ :=
    reads.reaches (reads.begins begins) placed ordered within matched
  obtain ⟨slot, found⟩ := itemAt?_of_containsAt contained
  refine ⟨⟨position, slot⟩, (mem_expectingTerminal _ _ _).mpr ⟨rfl, _, found, ?_⟩, _, found, rfl, rfl, rfl⟩
  exact (Option.any_eq_true _ _).mpr ⟨element, expects, terminal⟩

end Chart

namespace Completer

variable {completer : Completer} {buffer : Buffer} {name : String} {chart : Chart} {inquiry : Inquiry}
  {position : Nat} {id : NodeId}

theorem inquiriesAt_subset
    (near : position = chart.positions - 1 ∨ position + 1 = chart.positions - 1) :
    completer.inquiriesAt buffer chart position ⊆ completer.inquiries buffer chart := by
  intro inquiry asked
  apply List.mem_append.mpr
  rcases near with rfl | before
  · exact .inl asked
  · right
    rw [if_neg (by omega), ← before, Nat.add_sub_cancel]
    exact asked

/-- The source is asked about the first level of each path that is followed. -/
theorem mem_questions_of_path {level : Level} {outer : Path}
    (charted : completer.chart buffer name = .ok chart)
    (near : position = chart.positions - 1 ∨ position + 1 = chart.positions - 1)
    (expected : id ∈ chart.expectingTerminal position)
    (climbed : level :: outer ∈ chart.paths completer.limits.maxPaths id) :
    (⟨completer.grammar, level, outer, 0⟩, typedAt buffer chart.tokens position) ∈
      completer.questions buffer name := by
  have asked : ⟨position, typedAt buffer chart.tokens position,
      Site.chain completer.grammar 0 (level :: outer)⟩ ∈ completer.inquiries buffer chart :=
    inquiriesAt_subset near (mem_inquiriesAt.mpr ⟨id, expected, _, climbed, rfl⟩)
  rw [questions, charted]
  refine List.mem_flatMap.mpr ⟨_, asked, List.mem_map.mpr ⟨_, ?_, rfl⟩⟩
  rw [Inquiry.asked, Site.chain, Inquiry.askedFrom]
  exact List.mem_cons_self

/-- From each node that expects a terminal there is a path, whatever the limit. So the source is asked about
all terminals that may come next, behind the last token or in place of it, with what has been typed
there. -/
theorem terminals_asked :
    (∀ (grammar : Grammar) (start : Nat) (tokens : List Token) (position limit : Nat) (id : NodeId),
      id ∈ (Chart.parse grammar start tokens).expectingTerminal position → 1 ≤ limit →
        (Chart.parse grammar start tokens).paths limit id ≠ []) ∧
    ∀ (completer : Completer) (buffer : Buffer) (name : String) (chart : Chart)
        (position rule alternative index : Nat) (element : Element),
      completer.chart buffer name = .ok chart → 1 ≤ completer.limits.maxPaths →
      (position = chart.tokens.length ∨ position + 1 = chart.tokens.length) →
      completer.grammar.element? rule alternative index = some element →
      element.symbol.isTerminal = true →
      completer.grammar.LeftContext chart.start (chart.tokens.map Token.id) rule alternative index
        position →
      ∃ site, (site, typedAt buffer chart.tokens position) ∈ completer.questions buffer name ∧
        site.depth = 0 ∧ site.element = element ∧ site.level.node.position = position ∧
        site.level.item.rule = rule ∧ site.level.item.alternative = alternative ∧
        site.level.item.index = index := by
  refine ⟨fun _ _ _ _ _ _ expected positive => Chart.paths_ne_nil expected positive, ?_⟩
  intro completer buffer name chart position rule alternative index element charted positive near placed
    terminal context
  obtain ⟨start, tokens, _, _, _, rfl⟩ := chart_eq_ok charted
  obtain ⟨id, expected, item, found, rfl, rfl, rfl⟩ := Chart.exists_expecting placed terminal context
  obtain ⟨path, climbed⟩ := List.exists_mem_of_ne_nil _ (Chart.paths_ne_nil expected positive)
  obtain ⟨level, outer, rfl, stands, node, same⟩ := Chart.level_of_mem_paths climbed found
  have size : (Chart.parse completer.grammar start tokens).positions - 1 =
      (Chart.parse completer.grammar start tokens).tokens.length := by
    rw [Chart.positions, (Chart.parse_charted completer.grammar start tokens).2, Nat.add_sub_cancel]
    rfl
  rw [← size] at near
  refine ⟨_, mem_questions_of_path charted near expected climbed, rfl, ?_, ?_, by rw [same], by rw [same],
    by rw [same]⟩
  · have expects := stands.placed
    rw [same] at expects
    exact Option.some.inj (expects.symm.trans placed)
  · rw [node]
    exact ((Chart.mem_expectingTerminal _ _ _).mp expected).1

/-- Behind the parenthesis of a call the source is asked about the one that closes it. -/
theorem terminals_asked_call :
    let tokens : List Token := [⟨⟨1⟩, "s", 0, .default⟩, ⟨⟨2⟩, "(", 1, .default⟩]
    let chart := Chart.parse Sample.callGrammar 0 tokens
    Sample.callCompleter.chart (.atEnd "s(") "call" = .ok chart ∧
    ⟨2, 3⟩ ∈ chart.expectingTerminal 2 ∧ chart.paths 1 ⟨2, 3⟩ ≠ [] ∧
    Sample.callGrammar.element? 0 0 3 = some ⟨none, .literal ")" ⟨3⟩, .once⟩ ∧
    Sample.callGrammar.LeftContext 0 (tokens.map Token.id) 0 0 3 2 ∧
    ∃ site, (site, typedAt (.atEnd "s(") tokens 2) ∈
        Sample.callCompleter.questions (.atEnd "s(") "call" ∧
      site.element = ⟨none, .literal ")" ⟨3⟩, .once⟩ ∧ site.level.node.position = 2 := by
  intro tokens chart
  have found : Sample.callCompleter.grammar.findRule "call" = .ok 0 := by decide +kernel
  have checked : checkCaret (.atEnd "s(") = .ok () := by decide +kernel
  have read : Sample.callCompleter.prefixTokens (Buffer.atEnd "s(").beforeCaret = .ok tokens := by
    decide +kernel
  have charted : Sample.callCompleter.chart (.atEnd "s(") "call" = .ok chart := by
    rw [Completer.chart, found, checked, read]
    rfl
  have expected : ⟨2, 3⟩ ∈ chart.expectingTerminal 2 := by decide +kernel
  have placed : Sample.callGrammar.element? 0 0 3 = some ⟨none, .literal ")" ⟨3⟩, .once⟩ := by
    decide +kernel
  have item : Column.itemAt? chart.columns ⟨2, 3⟩ = some ⟨0, 0, 3, false, 0⟩ := by decide +kernel
  have expects : Item.next? Sample.callGrammar ⟨0, 0, 3, false, 0⟩ =
      some ⟨none, .literal ")" ⟨3⟩, .once⟩ := by decide +kernel
  have context : Sample.callGrammar.LeftContext 0 (tokens.map Token.id) 0 0 3 2 :=
    Chart.leftContext_of_next? item expects
  obtain ⟨climbed, asked⟩ := terminals_asked
  obtain ⟨site, question, _, element, position, _⟩ := asked Sample.callCompleter (.atEnd "s(") "call" chart
    2 0 0 3 _ charted (by decide) (.inl rfl) placed rfl context
  exact ⟨charted, expected, climbed _ _ _ _ _ _ expected (by decide), placed, context, site, question,
    element, position⟩

end Completer

end Typeahead
