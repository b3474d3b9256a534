import Typeahead.Grammar.Sample
import Typeahead.Proofs.Chart.Derivations
import Typeahead.Proofs.Chart.Invariant
import Typeahead.Proofs.Chart.Links

/-!
Chains of links. Read from a node without links on, they are the derivations of items in front of which nothing
more can be matched without a token, and every other derivation is the last part of one (`chains_derive`).
-/

namespace Typeahead

/-- The match by which a link leads to a node. -/
def Link.piece (link : Link) (id : NodeId) : Match := ⟨link.index, link.previous.position, id.position⟩

namespace Column

open Computability

variable {grammar : Grammar} {columns : Array (Column grammar)} {ids : List TokenId}
  {start position stop : Nat} {item : Item} {element : Element} {id : NodeId} {pieces : List Match}

/-- What a child matches is a word of the symbol that it is a child of. -/
theorem Charted.span_of_child (charted : Charted start ids columns) {symbol : Symbol} {child : Child}
    (matched : MatchesChild ids columns symbol position stop child) :
    stop ≤ ids.length ∧ span ids position stop ∈ symbol.language grammar.language := by
  cases child with
  | token index =>
    obtain ⟨_, rfl, terminal, id, present, accepted⟩ := matched
    refine ⟨Nat.succ_le_of_lt (List.getElem?_eq_some_iff.mp present).1, ?_⟩
    rw [span_succ ids present, Symbol.mem_language_of_terminal terminal]
    exact ⟨id, accepted, rfl⟩
  | rule completed =>
    obtain ⟨rfl, done, found, complete, refers, rfl⟩ := matched
    have valid := charted.valid found
    refine ⟨valid.within, ?_⟩
    rw [Symbol.language_of_target refers]
    exact Item.derives_of_complete complete valid.declared valid.matched

/-- Where its rule is begun, a chart has every item that has a derivation. -/
theorem Reads.contains_of_derivation (reads : Reads start ids columns)
    (begun : Begun columns item.rule item.origin)
    (declared : item.alternative < (grammar.alternatives item.rule).length)
    (derivation : item.Derivation grammar ids position pieces) :
    ContainsAt columns position item [] := by
  induction pieces using List.reverseRecOn generalizing item position with
  | nil =>
    obtain ⟨rfl, fresh, omissible⟩ := Item.derivation_nil.mp derivation
    have skips := Item.skipsTo_of_omits grammar (.start item.rule item.alternative item.origin) rfl
      item.index fun index _ before => omissible index (by simpa [Item.start] using before)
    have whole : ({ Item.start item.rule item.alternative item.origin with
        index := 0 + item.index } : Item) = item := by
      rw [Nat.zero_add, Item.start, ← fresh]
    exact reads.charted.skipsTo (begun item.alternative declared) (whole ▸ skips)
  | append_singleton pieces last ih =>
    obtain ⟨element, expects, occurs⟩ := derivation.before_expects
    obtain ⟨_, _, ordered, within, _⟩ := derivation.matched last List.mem_concat_self
    have contained : ContainsAt columns last.start (item.beforeLast pieces last) [] :=
      ih begun declared derivation.before_derivation
    have once := reads.occurs_once reads.runs_language contained expects ordered within occurs
    rw [← (Match.endToEnd_concat.mp derivation.joined).2]
    exact reads.charted.skipsTo once derivation.before_skipsTo

end Column

namespace Chart

open Column

/-- Links lead from one node to another by way of some matches. Which links of a node are taken is for
`follows` to say. -/
inductive Leads (follows : NodeId → Link → Prop) (first : NodeId) : List Match → NodeId → Prop where
  | none : Leads follows first [] first
  | more {pieces : List Match} {id : NodeId} {link : Link}
      (before : Leads follows first pieces link.previous) (linked : follows id link) :
      Leads follows first (pieces ++ [link.piece id]) id

def Linked (chart : Chart) (id : NodeId) (link : Link) : Prop := link ∈ chart.links id

def FirstLinked (chart : Chart) (id : NodeId) (link : Link) : Prop :=
  (chart.links id).head? = some link

section

variable {follows others : NodeId → Link → Prop} {first middle id : NodeId} {front pieces : List Match}
  {piece : Match}

theorem leads_nil : Leads follows first [] id ↔ first = id := by
  constructor
  · intro leads
    generalize whole : ([] : List Match) = pieces at leads
    cases leads with
    | none => rfl
    | more => simp at whole
  · rintro rfl
    exact .none

theorem leads_concat : Leads follows first (pieces ++ [piece]) id ↔
    ∃ link, Leads follows first pieces link.previous ∧ follows id link ∧ link.piece id = piece := by
  constructor
  · intro leads
    generalize whole : pieces ++ [piece] = others at leads
    cases leads with
    | none => simp at whole
    | more before linked =>
      obtain ⟨rfl, same⟩ := List.append_inj' whole rfl
      exact ⟨_, before, linked, (List.singleton_inj.mp same).symm⟩
  · rintro ⟨link, before, linked, rfl⟩
    exact .more before linked

/-- A chain goes on where another one ends. -/
theorem Leads.append (before : Leads follows first front middle) (leads : Leads follows middle pieces id) :
    Leads follows first (front ++ pieces) id := by
  induction leads with
  | none => rwa [List.append_nil]
  | more _ linked ih =>
    rw [← List.append_assoc]
    exact .more ih linked

theorem Leads.mono (leads : Leads follows first pieces id)
    (included : ∀ id link, follows id link → others id link) : Leads others first pieces id := by
  induction leads with
  | none => exact .none
  | more _ linked ih => exact .more ih (included _ _ linked)

end

variable {grammar : Grammar} {start : Nat} {tokens : List Token} {id first : NodeId} {link : Link}
  {item previous : Item} {element : Element} {pieces : List Match}

theorem linked_of_lastMatch (found : itemAt? (parse grammar start tokens).columns id = some item)
    (last : LastMatch (tokens.map Token.id) (parse grammar start tokens).columns id.position item link
      previous element) : (parse grammar start tokens).Linked id link := by
  obtain ⟨column, node, inChart, placed, rfl⟩ := itemAt?_eq_some_iff.mp found
  have charted := (parse_charted grammar start tokens).1
  exact (mem_links _ id link).mpr ⟨column, node, inChart, placed, charted.mem_links inChart placed last⟩

theorem links_wellFounded (grammar : Grammar) (start : Nat) (tokens : List Token) :
    WellFounded fun before id => ∃ link, (parse grammar start tokens).Linked id link ∧
      link.previous = before := by
  refine Subrelation.wf ?_ (measure (parse grammar start tokens).linkBound).wf
  rintro before id ⟨link, linked, rfl⟩
  exact linkBound_lt linked

theorem Leads.begins (leads : Leads (parse grammar start tokens).Linked first pieces id)
    (found : itemAt? (parse grammar start tokens).columns id = some item) :
    ∃ fresh, itemAt? (parse grammar start tokens).columns first = some fresh := by
  induction leads generalizing item with
  | none => exact ⟨item, found⟩
  | more _ linked ih =>
    obtain ⟨_, _, _, _, last⟩ := exists_lastMatch linked
    exact ih last.found

/-- What a chain reads, if nothing of the item has been matched where it begins. -/
theorem Leads.derives (leads : Leads (parse grammar start tokens).Linked first pieces id) {fresh : Item}
    (found : itemAt? (parse grammar start tokens).columns first = some fresh)
    (untouched : fresh.Derivation grammar (tokens.map Token.id) first.position []) :
    ∃ item, itemAt? (parse grammar start tokens).columns id = some item ∧
      item.Derivation grammar (tokens.map Token.id) id.position pieces ∧ Match.Consuming pieces ∧
      item.beforeFirst pieces = fresh := by
  induction leads with
  | none =>
    have unmatched := (Item.derivation_nil.mp untouched).2.1
    exact ⟨fresh, found, untouched, .nil, by rw [Item.beforeFirst, ← unmatched]; rfl⟩
  | @more pieces id link _ linked ih =>
    obtain ⟨item, previous, element, foundItem, last⟩ := exists_lastMatch linked
    obtain ⟨same, foundSame, derivation, consuming, began⟩ := ih
    rw [last.found] at foundSame
    cases foundSame
    obtain ⟨within, occurs⟩ := (parse_charted grammar start tokens).1.span_of_child last.child
    have longer := (derivation.advance last.expects last.before within occurs).skipsTo last.skips
    have goesOn := derivation.consuming_concat consuming id.position last.lt_of_matched
    obtain ⟨rule, alternative, origin⟩ := last.skips.same_alternative
    rw [Link.piece, last.index]
    exact ⟨item, foundItem, longer, goesOn,
      (Item.beforeFirst_concat rule alternative origin rfl).trans began⟩

/-- Every derivation is a chain that begins where nothing of the item has been matched. -/
theorem exists_leads (found : itemAt? (parse grammar start tokens).columns id = some item)
    (derivation : item.Derivation grammar (tokens.map Token.id) id.position pieces)
    (consuming : Match.Consuming pieces) :
    ∃ first, itemAt? (parse grammar start tokens).columns first = some (item.beforeFirst pieces) ∧
      first.position = item.origin ∧ Leads (parse grammar start tokens).Linked first pieces id := by
  have reads := parse_reads grammar start tokens
  induction pieces using List.reverseRecOn generalizing item id with
  | nil =>
    obtain ⟨origin, fresh, _⟩ := Item.derivation_nil.mp derivation
    exact ⟨id, by rw [found, Item.beforeFirst, ← fresh]; rfl, origin.symm, .none⟩
  | append_singleton pieces last ih =>
    have valid := reads.charted.valid found
    obtain ⟨element, expects, occurs⟩ := derivation.before_expects
    obtain ⟨_, _, ordered, within, _⟩ := derivation.matched last List.mem_concat_self
    have ends := (Match.endToEnd_concat.mp derivation.joined).2
    obtain ⟨others, advances⟩ := Match.consuming_concat.mp consuming
    have begun : Begun (parse grammar start tokens).columns item.rule item.origin :=
      reads.begins valid.begins
    have contained : ContainsAt (parse grammar start tokens).columns last.start
        (item.beforeLast pieces last) [] :=
      reads.contains_of_derivation begun valid.declared derivation.before_derivation
    obtain ⟨slot, foundBefore⟩ := itemAt?_of_containsAt contained
    obtain ⟨child, matched⟩ := reads.exists_child reads.runs_language foundBefore expects ordered
      within occurs
    obtain ⟨first, foundFirst, origin, leads⟩ := ih foundBefore derivation.before_derivation others
    have linked : (parse grammar start tokens).Linked id ⟨⟨last.start, slot⟩, last.index, child⟩ :=
      linked_of_lastMatch found {
        found := foundBefore
        expects := expects
        index := rfl
        before := ends ▸ ordered
        skips := derivation.before_skipsTo
        consumes := by
          intro here same
          have again : (item.beforeLast pieces last).matched = true := congrArg Item.matched same.symm
          obtain ⟨piece, final, repeated⟩ := Option.map_eq_some_iff.mp (beq_iff_eq.mp again)
          exact Nat.ne_of_lt (advances piece final repeated) (here.trans ends.symm)
        child := ends ▸ matched }
    have piece : last = Link.piece ⟨⟨last.start, slot⟩, last.index, child⟩ id := by
      rw [Link.piece, ← ends]
    have began : item.beforeFirst (pieces ++ [last]) = (item.beforeLast pieces last).beforeFirst pieces :=
      Item.beforeFirst_concat rfl rfl rfl rfl
    refine ⟨first, began ▸ foundFirst, origin, ?_⟩
    rw [piece]
    exact .more leads linked

theorem Leads.eq_nil_of_unlinked (leads : Leads (parse grammar start tokens).Linked first pieces id)
    (unlinked : (parse grammar start tokens).links id = []) : pieces = [] := by
  cases leads with
  | none => rfl
  | more _ linked =>
    rw [Linked, unlinked] at linked
    cases linked

/-- Nothing of an item has been matched at a node without links. -/
theorem derivation_of_unlinked (found : itemAt? (parse grammar start tokens).columns id = some item)
    (unlinked : (parse grammar start tokens).links id = []) :
    item.Derivation grammar (tokens.map Token.id) id.position [] := by
  have valid := (parse_charted grammar start tokens).1.valid found
  have origin := origin_of_unlinked found unlinked
  have empty := valid.matched
  have within := valid.within
  rw [origin, span_self] at empty
  rw [← origin] at within
  -- A derivation from empty matches would be a chain, and there is no link to begin it with.
  obtain ⟨pieces, derivation, consuming⟩ := Item.exists_derivation_of_nil within valid.inside empty
  rw [origin] at derivation
  obtain ⟨_, _, _, leads⟩ := exists_leads found derivation consuming
  rwa [leads.eq_nil_of_unlinked unlinked] at derivation

/-- The links that come first at their nodes lead back to one without links, and are as many as are counted. -/
theorem exists_leads_first {fuel : Nat} (enough : (parse grammar start tokens).linkBound id ≤ fuel) :
    ∃ first pieces, (parse grammar start tokens).links first = [] ∧
      Leads (parse grammar start tokens).FirstLinked first pieces id ∧
      (parse grammar start tokens).countLinks fuel id = pieces.length := by
  induction fuel generalizing id with
  | zero =>
    refine ⟨id, [], ?_, .none, rfl⟩
    by_contra linked
    obtain ⟨link, listed⟩ := List.exists_mem_of_ne_nil _ linked
    exact Nat.not_lt_of_le enough (linkBound_pos listed)
  | succ fuel ih =>
    cases linked : (parse grammar start tokens).links id with
    | nil => exact ⟨id, [], linked, .none, by rw [countLinks, linked]; rfl⟩
    | cons link links =>
      have listed : (parse grammar start tokens).Linked id link := by
        rw [Linked, linked]
        exact List.mem_cons_self
      obtain ⟨first, pieces, unlinked, leads, count⟩ :=
        ih (Nat.le_of_lt_succ (Nat.lt_of_lt_of_le (linkBound_lt listed) enough))
      refine ⟨first, _, unlinked, .more leads (by rw [FirstLinked, linked, List.head?_cons]), ?_⟩
      rw [countLinks, linked, List.length_append, List.length_singleton, ← count, Nat.add_comm]

theorem Linked.of_first (linked : (parse grammar start tokens).FirstLinked id link) :
    (parse grammar start tokens).Linked id link := List.mem_of_head? linked

/-- Links lead back to earlier and earlier places, and so come to an end. -/
theorem exists_unlinked (grammar : Grammar) (start : Nat) (tokens : List Token) (id : NodeId) :
    ∃ first pieces, (parse grammar start tokens).links first = [] ∧
      Leads (parse grammar start tokens).FirstLinked first pieces id ∧
      (parse grammar start tokens).parsedCount id = pieces.length := exists_leads_first (Nat.le_refl _)

theorem derives_of_unlinked (found : itemAt? (parse grammar start tokens).columns id = some item)
    (unlinked : (parse grammar start tokens).links first = [])
    (leads : Leads (parse grammar start tokens).Linked first pieces id) :
    item.Derivation grammar (tokens.map Token.id) id.position pieces ∧ Match.Consuming pieces ∧
      itemAt? (parse grammar start tokens).columns first = some (item.beforeFirst pieces) := by
  obtain ⟨fresh, begins⟩ := leads.begins found
  obtain ⟨same, foundSame, derivation, consuming, rfl⟩ :=
    leads.derives begins (derivation_of_unlinked begins unlinked)
  rw [found] at foundSame
  cases foundSame
  exact ⟨derivation, consuming, begins⟩

/-- Where nothing of an item has been matched, there are links exactly if an element in front of it can match
without a token. -/
theorem links_eq_nil_iff (found : itemAt? (parse grammar start tokens).columns id = some item)
    (untouched : item.Derivation grammar (tokens.map Token.id) id.position []) :
    (parse grammar start tokens).links id = [] ↔ item.FrontTakes grammar := by
  have within := ((parse_charted grammar start tokens).1.valid found).within
  rw [Item.frontTakes_iff within untouched]
  constructor
  · intro unlinked pieces derivation consuming
    obtain ⟨_, _, _, leads⟩ := exists_leads found derivation consuming
    exact leads.eq_nil_of_unlinked unlinked
  · intro only
    by_contra linked
    obtain ⟨link, listed⟩ := List.exists_mem_of_ne_nil _ linked
    obtain ⟨first, pieces, unlinked, leads, _⟩ := exists_unlinked grammar start tokens link.previous
    obtain ⟨derivation, consuming, _⟩ := derives_of_unlinked found unlinked
      (.more (leads.mono fun _ _ => Linked.of_first) listed)
    simpa using only _ derivation consuming

/-- A chain that begins at a node without links, and what it reads. -/
theorem exists_leads_iff (found : itemAt? (parse grammar start tokens).columns id = some item) :
    (∃ first, (parse grammar start tokens).links first = [] ∧
      Leads (parse grammar start tokens).Linked first pieces id) ↔
      item.Derivation grammar (tokens.map Token.id) id.position pieces ∧ Match.Consuming pieces ∧
        (item.beforeFirst pieces).FrontTakes grammar := by
  constructor
  · rintro ⟨first, unlinked, leads⟩
    obtain ⟨derivation, consuming, begins⟩ := derives_of_unlinked found unlinked leads
    exact ⟨derivation, consuming,
      (links_eq_nil_iff begins (derivation_of_unlinked begins unlinked)).mp unlinked⟩
  · rintro ⟨derivation, consuming, takes⟩
    obtain ⟨first, begins, origin, leads⟩ := exists_leads found derivation consuming
    exact ⟨first, (links_eq_nil_iff begins (origin ▸ derivation.beforeFirst)).mpr takes, leads⟩

/-- Every derivation is the last part of a chain that begins at a node without links. What it has in front are
matches without a token of elements that the derivation leaves out. -/
theorem exists_leads_append (found : itemAt? (parse grammar start tokens).columns id = some item)
    (derivation : item.Derivation grammar (tokens.map Token.id) id.position pieces)
    (consuming : Match.Consuming pieces) :
    ∃ first front, (parse grammar start tokens).links first = [] ∧
      Leads (parse grammar start tokens).Linked first (front ++ pieces) id ∧
      ∀ piece ∈ front, piece.start = item.origin ∧ piece.stop = item.origin ∧
        piece.index < (item.beforeFirst pieces).index := by
  obtain ⟨middle, begins, origin, leads⟩ := exists_leads found derivation consuming
  obtain ⟨first, front, unlinked, firstLeads, _⟩ := exists_unlinked grammar start tokens middle
  have onward := firstLeads.mono fun _ _ => Linked.of_first
  have derives := (derives_of_unlinked begins unlinked onward).1
  refine ⟨first, front, unlinked, onward.append leads, fun piece listed => ?_⟩
  obtain ⟨from', to', before, _⟩ :=
    (origin ▸ derivation.beforeFirst : Item.Derivation ..).matches_nil derives listed
  exact ⟨from', to', before⟩

/-- Following links back comes to an end. What is then read from there on is a derivation of the item, in which
no element repeats without a token, and in front of whose first match no element that is left out can match
without a token. All such derivations are read. Any other one is read behind matches without a token of elements
that it leaves out in front. As many elements as one of these chains matches are counted as parsed. -/
theorem chains_derive (grammar : Grammar) (start : Nat) (tokens : List Token) :
    let chart := parse grammar start tokens
    let ids := tokens.map Token.id
    (WellFounded fun before id => ∃ link, chart.Linked id link ∧ link.previous = before) ∧
    ∀ id item, itemAt? chart.columns id = some item →
      (∀ pieces, (∃ first, chart.links first = [] ∧ Leads chart.Linked first pieces id) ↔
        item.Derivation grammar ids id.position pieces ∧ Match.Consuming pieces ∧
          (item.beforeFirst pieces).FrontTakes grammar) ∧
      (∀ pieces, item.Derivation grammar ids id.position pieces → Match.Consuming pieces →
        ∃ first front, chart.links first = [] ∧ Leads chart.Linked first (front ++ pieces) id ∧
          ∀ piece ∈ front, piece.start = item.origin ∧ piece.stop = item.origin ∧
            piece.index < (item.beforeFirst pieces).index) ∧
      ∃ first pieces, chart.links first = [] ∧ Leads chart.FirstLinked first pieces id ∧
        item.Derivation grammar ids id.position pieces ∧ chart.parsedCount id = pieces.length := by
  intro chart ids
  refine ⟨links_wellFounded grammar start tokens, fun id item found => ⟨?_, ?_, ?_⟩⟩
  · exact fun pieces => exists_leads_iff found
  · exact fun pieces derivation consuming => exists_leads_append found derivation consuming
  · obtain ⟨first, pieces, unlinked, leads, count⟩ := exists_unlinked grammar start tokens id
    have derives := derives_of_unlinked found unlinked (leads.mono fun _ _ => Linked.of_first)
    exact ⟨first, pieces, unlinked, leads, derives.1, count⟩

def omissibleGrammar : Grammar :=
  (Grammar.compile (Sample.vocabulary [.literal "x" ⟨1⟩, .literal "y" ⟨2⟩, .literal "z" ⟨3⟩])
    [Sample.rule "start" [⟨none,
      [Form.element (.rule "front") "?", Form.element (.literal "x"), Form.element (.literal "z")]⟩],
      Sample.rule "front" [⟨none, [Form.element (.literal "y") "?"]⟩]]).toOption.getD ⟨[], .initial⟩

theorem omissibleGrammar_omits :
    Item.Derivation omissibleGrammar [⟨1⟩] ⟨0, 0, 2, false, 0⟩ 1 [⟨1, 0, 1⟩] where
  ascends := List.pairwise_singleton ..
  inside := by decide
  joined := ⟨rfl, rfl⟩
  matched := by
    have placed : omissibleGrammar.element? 0 0 1 = some ⟨none, .literal "x" ⟨1⟩, .once⟩ := by
      decide +kernel
    exact List.forall_mem_singleton.mpr ⟨_, placed, by decide, by decide, ⟨1⟩, rfl, rfl⟩
  omitted := by decide +kernel
  last := by decide

/-- An element that may be left out, and that may also be there without a token. -/
theorem chains_derive_omissible :
    let chart := parse omissibleGrammar 0 [⟨⟨1⟩, "x", 0, .default⟩]
    let item : Item := ⟨0, 0, 2, false, 0⟩
    itemAt? chart.columns ⟨1, 1⟩ = some item ∧ chart.links ⟨0, 0⟩ = [] ∧
      Leads chart.Linked ⟨0, 0⟩ [⟨0, 0, 0⟩, ⟨1, 0, 1⟩] ⟨1, 1⟩ ∧
      item.Derivation omissibleGrammar [⟨1⟩] 1 [⟨0, 0, 0⟩, ⟨1, 0, 1⟩] ∧ chart.parsedCount ⟨1, 1⟩ = 2 ∧
      item.Derivation omissibleGrammar [⟨1⟩] 1 [⟨1, 0, 1⟩] ∧
      ∃ first front, chart.links first = [] ∧ Leads chart.Linked first (front ++ [⟨1, 0, 1⟩]) ⟨1, 1⟩ := by
  intro chart item
  have found : itemAt? chart.columns ⟨1, 1⟩ = some item := by decide +kernel
  have unlinked : chart.links ⟨0, 0⟩ = [] := by decide +kernel
  obtain ⟨_, derives⟩ := chains_derive omissibleGrammar 0 [⟨⟨1⟩, "x", 0, .default⟩]
  obtain ⟨reads, leads, _⟩ := derives ⟨1, 1⟩ item found
  have chain : Leads chart.Linked ⟨0, 0⟩ [⟨0, 0, 0⟩, ⟨1, 0, 1⟩] ⟨1, 1⟩ := by
    have front : chart.Linked ⟨0, 2⟩ ⟨⟨0, 0⟩, 0, .rule ⟨0, 3⟩⟩ := by
      unfold Linked
      decide +kernel
    have last : chart.Linked ⟨1, 1⟩ ⟨⟨0, 2⟩, 1, .token 0⟩ := by
      unfold Linked
      decide +kernel
    exact .more (.more .none front) last
  obtain ⟨first, front, begins, there, _⟩ := leads [⟨1, 0, 1⟩] omissibleGrammar_omits (.singleton _)
  exact ⟨found, unlinked, chain, ((reads _).mp ⟨⟨0, 0⟩, unlinked, chain⟩).1, by decide +kernel,
    omissibleGrammar_omits, first, front, begins, there⟩

/-- A derivation that no chain from a node without links reads: it leaves out an element that is matched without a
token at the only node where it can begin. -/
theorem omissible_not_read :
    let chart := parse omissibleGrammar 0 [⟨⟨1⟩, "x", 0, .default⟩]
    let item : Item := ⟨0, 0, 2, false, 0⟩
    itemAt? chart.columns ⟨1, 1⟩ = some item ∧
      item.Derivation omissibleGrammar [⟨1⟩] 1 [⟨1, 0, 1⟩] ∧ Match.Consuming [⟨1, 0, 1⟩] ∧
      ¬ ∃ first, chart.links first = [] ∧ Leads chart.Linked first [⟨1, 0, 1⟩] ⟨1, 1⟩ := by
  intro chart item
  refine ⟨by decide +kernel, omissibleGrammar_omits, .singleton _, ?_⟩
  rintro ⟨first, unlinked, leads⟩
  rw [← List.nil_append [_], leads_concat] at leads
  obtain ⟨link, before, linked, _⟩ := leads
  have single : chart.links ⟨1, 1⟩ = [⟨⟨0, 2⟩, 1, .token 0⟩] := by decide +kernel
  rw [Linked, single, List.mem_singleton] at linked
  subst linked
  rw [leads_nil] at before
  subst before
  have onward : chart.links ⟨0, 2⟩ ≠ [] := by decide +kernel
  exact onward unlinked

end Chart

end Typeahead
