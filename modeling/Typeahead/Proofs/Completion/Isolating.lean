import Typeahead.Proofs.Completion.Range

/-!
What each path contributes to an answer. A source that fails is taken to have nothing to suggest, and of the sites
on a path the innermost one that there are suggestions for is the only one to be heard.
-/

namespace Typeahead

/-- Says what the other source says, and has no suggestions where that fails. -/
structure Source.Mends (mended source : Source) : Prop where
  same : ∀ site typed suggestions, source site typed = .ok suggestions → mended site typed = .ok suggestions
  nothing : ∀ site typed failure, source site typed = .error failure → mended site typed = .ok []

def Source.mended (source : Source) : Source := fun site typed => .ok ((source site typed).toOption.getD [])

theorem Source.mended_mends (source : Source) : source.mended.Mends source where
  same site typed suggestions said := by rw [mended, said, Except.toOption, Option.getD_some]
  nothing site typed failure said := by rw [mended, said, Except.toOption, Option.getD_none]

/-- How many elements of a path a source may be asked about: the innermost one, and those around it for as long as
nothing is parsed in front within their alternatives. -/
def Path.chainLength (path : Path) : Nat :=
  1 + ((path.take (path.length - 1)).takeWhile (·.parsed = 1)).length

def Path.site? (grammar : Grammar) (path : Path) (depth : Nat) : Option Site :=
  path[depth]?.map fun level => ⟨grammar, level, path.drop (depth + 1), depth⟩

/-- The source does not fail at the depth, and has suggestions for it. -/
def Source.Answers (source : Source) (grammar : Grammar) (path : Path) (typed : String) (depth : Nat) : Prop :=
  ∃ site suggestions, path.site? grammar depth = some site ∧ source site typed = .ok suggestions ∧
    suggestions ≠ []

/-- An offer is for the least depth of a path that the source has suggestions for. -/
structure Offer.Innermost (source : Source) (grammar : Grammar) (path : Path) (offer : Offer) (depth : Nat) :
    Prop where
  within : depth < path.chainLength
  site : path.site? grammar depth = some offer.site
  said : source offer.site offer.typed = .ok offer.suggestions
  nonempty : offer.suggestions ≠ []
  least : ∀ less < depth, ¬ source.Answers grammar path offer.typed less

theorem findSome?_eq_some_iff_getElem? {α β : Type} {f : α → Option β} {entries : List α} {value : β} :
    entries.findSome? f = some value ↔ ∃ (place : Nat) (entry : α), entries[place]? = some entry ∧
      f entry = some value ∧ ∀ less < place, ∀ other, entries[less]? = some other → f other = none := by
  rw [List.findSome?_eq_some_iff]
  constructor
  · rintro ⟨front, entry, rest, rfl, found, missed⟩
    refine ⟨front.length, entry, by simp, found, fun less before other here => missed other ?_⟩
    rw [List.getElem?_append_left before] at here
    exact List.mem_of_getElem? here
  · rintro ⟨place, entry, here, found, missed⟩
    obtain ⟨within, rfl⟩ := List.getElem?_eq_some_iff.mp here
    refine ⟨entries.take place, entries[place], entries.drop (place + 1), by simp, found, ?_⟩
    intro other listed
    obtain ⟨less, before, rfl⟩ := List.mem_take_iff_getElem.mp listed
    have inside : less < place := by omega
    exact missed less inside _ (List.getElem?_eq_getElem _)

theorem Path.chainLength_cons (level next : Level) (enclosing : Path) :
    chainLength (level :: next :: enclosing) =
      if level.parsed = 1 then chainLength (next :: enclosing) + 1 else 1 := by
  rw [chainLength, chainLength, List.length_cons, Nat.add_sub_cancel, List.length_cons, List.take_succ_cons,
    List.takeWhile_cons, Nat.add_sub_cancel]
  by_cases parsed : level.parsed = 1
  · simp only [parsed, decide_true, if_pos, List.length_cons]
    omega
  · simp [parsed]

/-- The sites on a path, one for each depth. -/
theorem Site.getElem?_chain (grammar : Grammar) (depth above : Nat) (path : Path) :
    (chain grammar depth path)[above]? = if above < path.chainLength then
      path[above]?.map fun level => ⟨grammar, level, path.drop (above + 1), depth + above⟩ else none := by
  induction path generalizing depth above with
  | nil => simp [chain]
  | cons level enclosing ih =>
    rw [chain]
    cases above with
    | zero => simp [Path.chainLength]
    | succ above =>
      cases enclosing with
      | nil => simp [chain]
      | cons next enclosing =>
        rw [Path.chainLength_cons, List.getElem?_cons_succ]
        by_cases parsed : level.parsed = 1
        · rw [if_pos parsed, if_pos parsed, ih]
          simp [Nat.add_assoc, Nat.add_comm 1]
        · simp [parsed]

/-- The sites that are asked about on a path are those at its depths below the length of the chain. -/
theorem Site.getElem?_chain_eq_some_iff {grammar : Grammar} {path : Path} {depth : Nat} {site : Site} :
    (chain grammar 0 path)[depth]? = some site ↔
      depth < path.chainLength ∧ path.site? grammar depth = some site := by
  rw [getElem?_chain, Nat.zero_add]
  by_cases within : depth < path.chainLength
  · rw [if_pos within]
    exact (and_iff_right within).symm
  · simp [within]

namespace Inquiry

variable {source mended : Source} {inquiry : Inquiry} {site : Site} {offer : Offer}

theorem answer?_eq_some_iff : inquiry.answer? source site = some offer ↔
    offer.position = inquiry.position ∧ offer.typed = inquiry.typed ∧ offer.site = site ∧
      source site inquiry.typed = .ok offer.suggestions ∧ offer.suggestions ≠ [] := by
  constructor
  · intro answered
    obtain ⟨same, position, typed, said⟩ := answer?_eq_some answered
    refine ⟨position, typed, same, said, fun empty => ?_⟩
    rw [answer?, said, empty] at answered
    cases answered
  · obtain ⟨place, text, here, suggestions⟩ := offer
    rintro ⟨rfl, rfl, rfl, said, nonempty⟩
    obtain ⟨first, others, rfl⟩ := List.exists_cons_of_ne_nil nonempty
    rw [answer?, said]

theorem answer?_eq_none_iff : inquiry.answer? source site = none ↔
    ∀ suggestions, source site inquiry.typed = .ok suggestions → suggestions = [] := by
  rw [Option.eq_none_iff_forall_ne_some]
  constructor
  · intro silent suggestions said
    by_contra nonempty
    exact silent ⟨inquiry.position, inquiry.typed, site, suggestions⟩
      (answer?_eq_some_iff.mpr ⟨rfl, rfl, rfl, said, nonempty⟩)
  · intro silent offer answered
    obtain ⟨_, _, _, said, nonempty⟩ := answer?_eq_some_iff.mp answered
    exact nonempty (silent _ said)

/-- A failure is as good as no suggestions. -/
theorem answer?_of_mends (mends : mended.Mends source) : inquiry.answer? mended = inquiry.answer? source := by
  funext site
  rw [answer?, answer?]
  cases said : source site inquiry.typed with
  | error failure => rw [mends.nothing _ _ _ said]
  | ok suggestions => rw [mends.same _ _ _ said]

section Path

variable {grammar : Grammar} {path : Path} {position depth : Nat} {typed : String}

theorem not_answers_iff (within : depth < path.chainLength) : ¬ source.Answers grammar path typed depth ↔
    ∀ site, (Site.chain grammar 0 path)[depth]? = some site →
      (Inquiry.mk position typed (Site.chain grammar 0 path)).answer? source site = none := by
  simp only [answer?_eq_none_iff, Site.getElem?_chain_eq_some_iff]
  constructor
  · intro silent site here suggestions said
    by_contra nonempty
    exact silent ⟨site, suggestions, here.2, said, nonempty⟩
  · rintro silent ⟨site, suggestions, here, said, nonempty⟩
    exact nonempty (silent site ⟨within, here⟩ suggestions said)

/-- The offer for a path is the innermost one. -/
theorem offer?_path_eq_some_iff :
    (Inquiry.mk position typed (Site.chain grammar 0 path)).offer? source = some offer ↔
      offer.position = position ∧ offer.typed = typed ∧ ∃ depth, offer.Innermost source grammar path depth := by
  rw [offer?, findSome?_eq_some_iff_getElem?]
  constructor
  · rintro ⟨depth, site, here, answered, missed⟩
    obtain ⟨place, rfl, rfl, said, nonempty⟩ := answer?_eq_some_iff.mp answered
    obtain ⟨within, here⟩ := Site.getElem?_chain_eq_some_iff.mp here
    exact ⟨place, rfl, depth, within, here, said, nonempty, fun less before =>
      (not_answers_iff (Nat.lt_trans before within)).mpr (missed less before)⟩
  · rintro ⟨rfl, rfl, depth, innermost⟩
    refine ⟨depth, offer.site, ?_, ?_, fun less before => ?_⟩
    · exact Site.getElem?_chain_eq_some_iff.mpr ⟨innermost.within, innermost.site⟩
    · exact answer?_eq_some_iff.mpr ⟨rfl, rfl, rfl, innermost.said, innermost.nonempty⟩
    · exact (not_answers_iff (Nat.lt_trans before innermost.within)).mp (innermost.least less before)

/-- There is no offer for a path that there are no suggestions on. -/
theorem offer?_path_eq_none_iff :
    (Inquiry.mk position typed (Site.chain grammar 0 path)).offer? source = none ↔
      ∀ depth < path.chainLength, ¬ source.Answers grammar path typed depth := by
  rw [offer?, List.findSome?_eq_none_iff]
  constructor
  · intro silent depth within
    exact (not_answers_iff within).mpr fun site here => silent site (List.mem_of_getElem? here)
  · intro silent site listed
    obtain ⟨depth, here⟩ := List.mem_iff_getElem?.mp listed
    have within := (Site.getElem?_chain_eq_some_iff.mp here).1
    exact (not_answers_iff within).mp (silent depth within) site here

end Path

end Inquiry

namespace Completer

def withSource (completer : Completer) (source : Source) : Completer := { completer with source }

section Mended

variable {completer : Completer} {buffer : Buffer} {source : Source}

theorem appendLiterals_withSource (literals : List String) (text : String) (budget : Nat) :
    (completer.withSource source).appendLiterals literals text budget =
      completer.appendLiterals literals text budget := by
  induction literals generalizing text budget with
  | nil => rfl
  | cons literal literals ih =>
    simp only [appendLiterals, ih]
    rfl

theorem extendedResult_withSource (content : String) (proposal : Proposal) (budget : Nat) :
    (completer.withSource source).extendedResult content proposal budget =
      completer.extendedResult content proposal budget := by
  rw [extendedResult, extendedResult, appendLiterals_withSource]

theorem agree_withSource (content text : String) (proposals : List Proposal) (budget : Nat) :
    (completer.withSource source).agree content text proposals budget =
      completer.agree content text proposals budget := by
  induction proposals generalizing budget with
  | nil => rfl
  | cons proposal proposals ih => rw [agree, agree, extendedResult_withSource, ih]

theorem editOf_withSource (group : ProposalGroup) (budget : Nat) :
    (completer.withSource source).editOf buffer group budget = completer.editOf buffer group budget := by
  simp only [editOf, agreedResult?, extendedResult_withSource, agree_withSource]

theorem editsOf_withSource (groups : List ProposalGroup) (budget : Nat) :
    (completer.withSource source).editsOf buffer groups budget = completer.editsOf buffer groups budget := by
  induction groups generalizing budget with
  | nil => rfl
  | cons group groups ih => rw [editsOf, editsOf, editOf_withSource, ih]

end Mended

/-- The paths that sites are taken from in a request, each with its position: those of the last position of the
chart, and then those of the one before it, if there is one. -/
def visits (completer : Completer) (chart : Chart) : List (Nat × Path) :=
  let last := chart.positions - 1
  (last :: if last = 0 then [] else [last - 1]).flatMap fun position =>
    (chart.expectingTerminal position).flatMap fun id =>
      (chart.paths completer.limits.maxPaths id).map (position, ·)

/-- What paths contribute to the proposals of a request, one behind the other. A path on which the source has
suggestions nowhere contributes none. Of any other path, the least depth with suggestions does, with all that
there are for it but those that fail the check of the token before them. -/
inductive Contributes (completer : Completer) (buffer : Buffer) (chart : Chart) :
    List (Nat × Path) → (budget : Nat) → List Proposal → Prop where
  | done {budget : Nat} : Contributes completer buffer chart [] budget []
  | silent {position budget : Nat} {path : Path} {visits : List (Nat × Path)} {proposals : List Proposal}
      (nowhere : ∀ depth < path.chainLength, ¬ completer.source.Answers completer.grammar path
        (typedAt buffer chart.tokens position) depth)
      (others : Contributes completer buffer chart visits budget proposals) :
      Contributes completer buffer chart ((position, path) :: visits) budget proposals
  | heard {budget depth : Nat} {path : Path} {visits : List (Nat × Path)} {proposals : List Proposal}
      {offer : Offer} (typed : offer.typed = typedAt buffer chart.tokens offer.position)
      (innermost : offer.Innermost completer.source completer.grammar path depth)
      (others : Contributes completer buffer chart visits (budget - offer.rereads) proposals) :
      Contributes completer buffer chart ((offer.position, path) :: visits) budget
        (((completer.keptOf buffer chart.tokens offer (budget - 1)).map fun suggestion =>
          ⟨offer.site, buffer.caret - offer.typed.utf8ByteSize, completer.stopOf buffer offer budget,
            suggestion⟩) ++ proposals)

section Visited

variable {completer : Completer} {buffer : Buffer} {rule : String} {chart : Chart}

def inquiryOf (completer : Completer) (buffer : Buffer) (chart : Chart) (visit : Nat × Path) : Inquiry :=
  ⟨visit.1, typedAt buffer chart.tokens visit.1, Site.chain completer.grammar 0 visit.2⟩

def offerOf (completer : Completer) (buffer : Buffer) (chart : Chart) (visit : Nat × Path) : Option Offer :=
  (completer.inquiryOf buffer chart visit).offer? completer.source

theorem inquiries_eq_map_visits (completer : Completer) (buffer : Buffer) (chart : Chart) :
    completer.inquiries buffer chart = (completer.visits chart).map (completer.inquiryOf buffer chart) := by
  have here (position : Nat) : completer.inquiriesAt buffer chart position =
      ((chart.expectingTerminal position).flatMap fun id =>
        (chart.paths completer.limits.maxPaths id).map (position, ·)).map
          (completer.inquiryOf buffer chart) := by
    simp only [inquiriesAt, List.map_flatMap, List.map_map]
    rfl
  rw [inquiries, visits, List.flatMap_cons, List.map_append, ← here]
  split
  · rfl
  · rw [List.flatMap_singleton, ← here]

theorem offers_eq_filterMap_visits (completer : Completer) (buffer : Buffer) (chart : Chart) :
    completer.offers buffer chart = (completer.visits chart).filterMap (completer.offerOf buffer chart) := by
  rw [offers, inquiries_eq_map_visits, List.filterMap_map]
  rfl

theorem offerOf_eq_none_iff {position : Nat} {path : Path} :
    completer.offerOf buffer chart (position, path) = none ↔ ∀ depth < path.chainLength,
      ¬ completer.source.Answers completer.grammar path (typedAt buffer chart.tokens position) depth :=
  Inquiry.offer?_path_eq_none_iff

theorem offerOf_eq_some_iff {position : Nat} {path : Path} {offer : Offer} :
    completer.offerOf buffer chart (position, path) = some offer ↔ offer.position = position ∧
      offer.typed = typedAt buffer chart.tokens position ∧
      ∃ depth, offer.Innermost completer.source completer.grammar path depth :=
  Inquiry.offer?_path_eq_some_iff

/-- What is proposed for the offers on some paths is what the paths contribute, and nothing else. -/
theorem contributes_iff {visits : List (Nat × Path)} {budget : Nat} {proposals : List Proposal} :
    Contributes completer buffer chart visits budget proposals ↔
      (completer.proposalsOfAll buffer chart.tokens (visits.filterMap (completer.offerOf buffer chart))
        budget).1 = proposals := by
  constructor
  · intro contributes
    induction contributes with
    | done => rfl
    | silent nowhere _ ih =>
      rw [List.filterMap_cons_none (offerOf_eq_none_iff.mpr nowhere), ih]
    | heard typed innermost _ ih =>
      rw [List.filterMap_cons_some (offerOf_eq_some_iff.mpr ⟨rfl, typed, _, innermost⟩),
        proposalsOfAll_cons, proposalsOf_eq, ih]
  · rintro rfl
    induction visits generalizing budget with
    | nil => exact .done
    | cons visit visits ih =>
      obtain ⟨position, path⟩ := visit
      cases offered : completer.offerOf buffer chart (position, path) with
      | none =>
        rw [List.filterMap_cons_none offered]
        exact .silent (offerOf_eq_none_iff.mp offered) ih
      | some offer =>
        obtain ⟨rfl, typed, depth, innermost⟩ := offerOf_eq_some_iff.mp offered
        rw [List.filterMap_cons_some offered, proposalsOfAll_cons, proposalsOf_eq]
        exact .heard typed innermost ih

end Visited

theorem collect_withSource {completer : Completer} {mended : Source} (mends : mended.Mends completer.source)
    (buffer : Buffer) (rule : String) :
    (completer.withSource mended).collect buffer rule = completer.collect buffer rule := by
  have charted : (completer.withSource mended).chart buffer rule = completer.chart buffer rule := rfl
  have offered : Inquiry.offer? mended = Inquiry.offer? completer.source := by
    funext inquiry
    rw [Inquiry.offer?, Inquiry.offer?, Inquiry.answer?_of_mends mends]
  rw [collect, collect, charted]
  congr 1
  funext chart
  have heard : (completer.inquiries buffer chart).filterMap (·.offer? mended) =
      (completer.inquiries buffer chart).filterMap (·.offer? completer.source) := by rw [offered]
  exact (proposalsOfAll_congr (completer.withSource mended) completer rfl rfl rfl _ _).trans
    (congrArg (completer.proposalsOfAll buffer chart.tokens · completer.limits.rereads) heard)

/-- A source that fails is as good as one that has nothing to suggest, for all that is answered. And what is
proposed comes from the paths of the last two positions in order, from each all that the source suggests for the
innermost element that it has suggestions for, but what the check of the token before drops. -/
theorem proposals_innermost :
    (∀ (completer : Completer) (mended : Source), mended.Mends completer.source →
      ∀ (buffer : Buffer) (rule : String),
        (completer.withSource mended).proposals buffer rule = completer.proposals buffer rule ∧
        (completer.withSource mended).complete buffer rule = completer.complete buffer rule) ∧
    ∀ (completer : Completer) (buffer : Buffer) (rule : String) (chart : Chart),
      completer.chart buffer rule = .ok chart → ∃ proposals, completer.proposals buffer rule = .ok proposals ∧
        ∀ others, Contributes completer buffer chart (completer.visits chart) completer.limits.rereads others ↔
          others = proposals := by
  refine ⟨fun completer mended mends buffer rule => ⟨?_, ?_⟩, fun completer buffer rule chart charted => ?_⟩
  · rw [proposals, proposals, collect_withSource mends]
  · rw [complete, complete, collect_withSource mends]
    simp only [editsOf_withSource]
  · refine ⟨_, by rw [proposals_eq, charted, Except.map], fun others => ?_⟩
    rw [contributes_iff, ← offers_eq_filterMap_visits, eq_comm]

end Completer

namespace Sample

/-- Fails where a named token is expected, and else suggests a key. -/
def keys : Source := fun site _ =>
  match site.element.symbol with
  | .token _ _ => .error "lookup failed"
  | _ => .ok [{ content := "key" }]

def queryCompleter : Completer :=
  let grammar := query.toOption.getD ⟨[], .initial⟩
  { grammar, lexer := Lexicon.lexer { vocabulary := grammar.vocabulary, identifier := some ⟨3⟩ }, source := keys }

end Sample

/-- The source fails for both tokens that a value may be, and is heard for the value on each of the paths. -/
theorem Completer.proposals_innermost_query :
    let completer := Sample.queryCompleter
    completer.source.mended.Mends completer.source ∧
    (completer.withSource completer.source.mended).complete (.atEnd "key:") "query" =
      completer.complete (.atEnd "key:") "query" ∧
    ∃ chart proposals, completer.chart (.atEnd "key:") "query" = .ok chart ∧
      Contributes completer (.atEnd "key:") chart (completer.visits chart) 256 proposals ∧
      proposals.map (fun proposal => (proposal.site.depth, proposal.suggestion.content)) =
        [(1, "key"), (1, "key")] := by
  intro completer
  have mends := completer.source.mended_mends
  have charts : (completer.chart (.atEnd "key:") "query").toOption.isSome = true := by decide +kernel
  have places : (completer.proposals (.atEnd "key:") "query").toOption.map
      (·.map fun proposal => (proposal.site.depth, proposal.suggestion.content)) =
      some [(1, "key"), (1, "key")] := by decide +kernel
  obtain ⟨chart, charts⟩ := Option.isSome_iff_exists.mp charts
  have charted := eq_ok_of_toOption charts
  obtain ⟨proposals, proposed, contributes⟩ :=
    proposals_innermost.2 completer (.atEnd "key:") "query" chart charted
  rw [proposed] at places
  exact ⟨mends, (proposals_innermost.1 completer _ mends (.atEnd "key:") "query").2, chart, proposals, charted,
    (contributes proposals).mpr rfl, Option.some.inj places⟩

end Typeahead
