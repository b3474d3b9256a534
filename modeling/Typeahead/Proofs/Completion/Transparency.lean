import Mathlib.Data.Multiset.Basic
import Typeahead.Proofs.Chart.Renaming
import Typeahead.Proofs.Completion.Keeping
import Typeahead.Proofs.Grammar.Extraction

/-!
Blocks are transparent. A source that looks at terminals alone cannot tell whether alternatives are those of
a block or those of a rule with a name: the same is proposed, if in another order.
-/

namespace Typeahead

/-- A source that has nothing to say about rules. What it says about a terminal depends on the text typed, the
depth and the element alone. -/
structure Source.Plain (source : Source)
    (answers : String → Nat → Element → Except String (List Suggestion)) : Prop where
  terminal (site : Site) (typed : String) (terminal : site.element.symbol.isTerminal = true) :
    source site typed = answers typed site.depth site.element
  rule (site : Site) (typed : String) (rule : site.element.symbol.isTerminal = false) :
    source site typed = .ok []

/-- What is seen of a proposal: the bytes that it replaces, and the text with its caret and description. -/
def Proposal.shown (proposal : Proposal) : Nat × Nat × Suggestion :=
  (proposal.start, proposal.stop, proposal.suggestion)

/-- What is seen of all proposals, each as often as it is made. -/
def Completer.shown (completer : Completer) (buffer : Buffer) (rule : String) :
    Except RequestError (Multiset (Nat × Nat × Suggestion)) :=
  (completer.proposals buffer rule).map fun proposals => ↑(proposals.map Proposal.shown)

/-- What the proposals of an offer depend on. -/
structure Offer.Core where
  position : Nat
  typed : String
  element : Element
  suggestions : List Suggestion

def Offer.core (offer : Offer) : Offer.Core :=
  ⟨offer.position, offer.typed, offer.site.element, offer.suggestions⟩

namespace Inquiry

variable {source : Source} {answers : String → Nat → Element → Except String (List Suggestion)}
  {chart : Chart} {level : Level} {enclosing : List Level} {inquiry : Inquiry} {site : Site}

/-- What a plain source offers for a terminal. -/
def core? (answers : String → Nat → Element → Except String (List Suggestion)) (position : Nat)
    (typed : String) (element : Element) : Option Offer.Core :=
  match answers typed 0 element with
  | .ok (first :: others) => some ⟨position, typed, element, first :: others⟩
  | _ => none

theorem core_answer? (plain : source.Plain answers) (terminal : site.element.symbol.isTerminal = true)
    (innermost : site.depth = 0) : (inquiry.answer? source site).map Offer.core =
      core? answers inquiry.position inquiry.typed site.element := by
  rw [answer?, plain.terminal site _ terminal, innermost, core?]
  rcases answers inquiry.typed 0 site.element with _ | _ | _ <;> rfl

theorem answer?_rule (plain : source.Plain answers) (rule : site.element.symbol.isTerminal = false) :
    inquiry.answer? source site = none := by
  rw [answer?, plain.rule site _ rule]

/-- Behind a terminal come references to rules, which a plain source passes over. -/
theorem core_offer? (plain : source.Plain answers) {others : List Site}
    (sites : inquiry.sites = site :: others)
    (terminal : site.element.symbol.isTerminal = true) (innermost : site.depth = 0)
    (rules : ∀ other ∈ others, other.element.symbol.isTerminal = false) :
    (inquiry.offer? source).map Offer.core =
      core? answers inquiry.position inquiry.typed site.element := by
  have passed : others.findSome? (inquiry.answer? source) = none :=
    List.findSome?_eq_none_iff.mpr fun other listed => answer?_rule plain (rules other listed)
  rw [← core_answer? plain terminal innermost, offer?, sites, List.findSome?_cons, passed]
  cases inquiry.answer? source site <;> rfl

end Inquiry

namespace Chart

variable {σ : Equiv.Perm Nat} {chart other : Chart}

theorem Ascent.rule_of_mem {level next : Level} {path : Path} (ascent : chart.Ascent (level :: path))
    (listed : next ∈ path) : next.element.symbol.isTerminal = false := by
  induction path generalizing level with
  | nil => cases listed
  | cons first path ih =>
    cases ascent with
    | step _ awaits outer =>
      rcases List.mem_cons.mp listed with rfl | listed
      · rw [Symbol.isTerminal, awaits.refers outer.stands]
        rfl
      · exact ih outer listed

theorem expected?_of_itemAt? {id : NodeId} {item : Item}
    (found : Column.itemAt? chart.columns id = some item) :
    chart.expected? id = item.next? chart.grammar := by
  rw [itemAt?_columns] at found
  obtain ⟨node, placed, rfl⟩ := Option.map_eq_some_iff.mp found
  rw [expected?, placed, Option.bind_some]

theorem expected?_of_mem {position : Nat} {id : NodeId} (listed : id ∈ chart.expectingTerminal position) :
    ∃ element, chart.expected? id = some element ∧ element.symbol.isTerminal = true := by
  obtain ⟨_, item, found, expects⟩ := (mem_expectingTerminal _ _ _).mp listed
  rw [expected?_of_itemAt? found]
  exact (Option.any_eq_true _ _).mp expects

/-- Nodes with the same item expect the same terminal. -/
theorem Twins.expected? (twins : Twins σ chart other) {position : Nat} {id image : NodeId} {item : Item}
    (listed : id ∈ chart.expectingTerminal position)
    (found : Column.itemAt? chart.columns id = some item)
    (imageFound : Column.itemAt? other.columns image = some (item.renamed σ)) :
    other.expected? image = chart.expected? id := by
  obtain ⟨element, expected, terminal⟩ := expected?_of_mem listed
  rw [expected?_of_itemAt? found] at expected ⊢
  rw [expected?_of_itemAt? imageFound]
  have related := item.next?_renamed twins.grammar
  rw [expected] at related ⊢
  generalize (item.renamed σ).next? other.grammar = next at related ⊢
  cases related with
  | some related => rw [related.eq_of_terminal terminal]

end Chart

/-- How far a terminal reaches has nothing to do with the rules. -/
theorem Element.reach_of_terminal {element : Element} (terminal : element.symbol.isTerminal = true)
    (grammar other : Grammar) : element.reach grammar = element.reach other := by
  have symbol : ∀ tokens, element.symbol.reach grammar tokens = element.symbol.reach other tokens := by
    intro tokens
    cases kind : element.symbol with
    | rule target name =>
      rw [kind] at terminal
      cases terminal
    | literal | token | noneOf | any => rfl
  have onto : ∀ fuel, element.reachOnto grammar fuel = element.reachOnto other fuel := by
    intro fuel
    induction fuel with
    | zero => rfl
    | succ fuel ih =>
      funext tokens
      rw [reachOnto, reachOnto, symbol, ih]
  funext tokens
  rw [reach, reach, onto]

namespace Completer

variable {completer : Completer} {answers : String → Nat → Element → Except String (List Suggestion)}
  {buffer : Buffer} {chart other : Chart} {σ : Equiv.Perm Nat}

/-- On a path, a plain source offers what it has for the terminal. -/
theorem core_offer? (plain : completer.source.Plain answers) {id : NodeId} {path : Path} {limit : Nat}
    {element : Element} (expected : chart.expected? id = some element)
    (terminal : element.symbol.isTerminal = true) (climbed : path ∈ chart.paths limit id)
    (position : Nat) (typed : String) :
    ((Inquiry.mk position typed (Site.chain completer.grammar 0 path)).offer? completer.source).map
      Offer.core = Inquiry.core? answers position typed element := by
  obtain ⟨ascent, level, enclosing, rfl, rfl⟩ := Chart.paths_ascend climbed
  rw [Chart.expected?_of_itemAt? ascent.stands.found, ascent.stands.expects] at expected
  obtain rfl := Option.some.inj expected
  let innermost : Site := ⟨completer.grammar, level, enclosing, 0⟩
  have sites : Site.chain completer.grammar 0 (level :: enclosing) = innermost ::
      if level.parsed = 1 then Site.chain completer.grammar 1 enclosing else [] := by rw [Site.chain]
  refine @Inquiry.core_offer? _ _ ⟨position, typed, _⟩ innermost plain _ sites terminal rfl
    fun site listed => ?_
  split at listed
  · obtain ⟨_, above, _, here⟩ := Site.mem_chain listed
    exact ascent.rule_of_mem (List.mem_of_mem_drop (here ▸ List.mem_cons_self))
  · cases listed

theorem filterMap_const_of_length {α β γ : Type} {xs : List α} {ys : List β} (same : xs.length = ys.length)
    (value : Option γ) : xs.filterMap (fun _ => value) = ys.filterMap fun _ => value := by
  have counted : ∀ {δ : Type} (zs : List δ), zs.filterMap (fun _ => value) =
      (List.replicate zs.length value).filterMap id := by
    intro δ zs
    rw [← List.map_const', List.filterMap_map]
    rfl
  rw [counted, counted, same]

/-- All that is offered at a position, without the paths. -/
theorem cores_at (plain : completer.source.Plain answers) (position : Nat) :
    ((completer.inquiriesAt buffer chart position).filterMap (·.offer? completer.source)).map Offer.core =
      (chart.expectingTerminal position).flatMap fun id =>
        (chart.paths completer.limits.maxPaths id).filterMap fun _ => (chart.expected? id).bind
          (Inquiry.core? answers position (typedAt buffer chart.tokens position)) := by
  rw [inquiriesAt, List.filterMap_flatMap, List.map_flatMap]
  refine List.flatMap_congr fun id listed => ?_
  rw [List.filterMap_map, List.map_filterMap]
  refine List.filterMap_congr fun path climbed => ?_
  obtain ⟨element, expected, terminal⟩ := Chart.expected?_of_mem listed
  rw [expected]
  exact core_offer? plain expected terminal climbed _ _

/-- The order of rules has no influence on what is offered, other than on the order of the offers. -/
theorem cores_at_perm (twins : Chart.Twins σ chart other) (tokens : other.tokens = chart.tokens)
    {grammar : Grammar} (plain : completer.source.Plain answers) (position : Nat) :
    (((({ completer with grammar } : Completer).inquiriesAt buffer other position).filterMap
      fun inquiry => inquiry.offer? completer.source).map Offer.core).Perm
      (((completer.inquiriesAt buffer chart position).filterMap
        fun inquiry => inquiry.offer? completer.source).map Offer.core) := by
  have cores := @cores_at { completer with grammar } answers buffer other plain position
  rw [cores_at plain, cores, tokens]
  refine (Chart.perm_map_of_keys (twins.expectingTerminal position)
    fun image imageListed id listed same => ?_).flatten
  obtain ⟨here, item, found, _⟩ := (Chart.mem_expectingTerminal _ _ _).mp listed
  have position := ((Chart.mem_expectingTerminal _ _ _).mp imageListed).1
  rw [found, Option.map_some] at same
  rw [twins.expected? listed found same]
  exact filterMap_const_of_length (twins.length_paths found same (position.trans here.symm) _) _

theorem offers_perm (twins : Chart.Twins σ chart other) (tokens : other.tokens = chart.tokens)
    {grammar : Grammar} (plain : completer.source.Plain answers) :
    ((({ completer with grammar } : Completer).offers buffer other).map Offer.core).Perm
      ((completer.offers buffer chart).map Offer.core) := by
  have positions : other.positions = chart.positions := twins.size
  rw [offers, offers, inquiries, inquiries, positions, List.filterMap_append, List.filterMap_append,
    List.map_append, List.map_append]
  refine (cores_at_perm twins tokens plain _).append ?_
  split
  · exact .nil
  · exact cores_at_perm twins tokens plain _

theorem terminal_of_offered (plain : completer.source.Plain answers) {core : Offer.Core}
    (offered : core ∈ (completer.offers buffer chart).map Offer.core) :
    core.element.symbol.isTerminal = true := by
  obtain ⟨offer, listed, rfl⟩ := List.mem_map.mp offered
  obtain ⟨inquiry, _, found⟩ := List.mem_filterMap.mp listed
  obtain ⟨site, _, answered⟩ := List.exists_of_findSome?_eq_some found
  obtain ⟨rfl, _, _, _⟩ := Inquiry.answer?_eq_some answered
  cases terminal : offer.core.element.symbol.isTerminal with
  | true => rfl
  | false =>
    rw [Inquiry.answer?_rule plain terminal] at answered
    cases answered

/-- What is seen of the proposals for an offer if there is budget for all of them. -/
def shownOf (completer : Completer) (buffer : Buffer) (tokens : List Token) (core : Offer.Core) :
    List (Nat × Nat × Suggestion) :=
  let start := buffer.caret - core.typed.utf8ByteSize
  let reach := completer.reachEnd? buffer.content start core.element
  let stop := max (reach.getD buffer.caret) buffer.caret
  let before := (Text.before? buffer.content start).getD ""
  let kept :=
    if core.position = 0 then core.suggestions
    else core.suggestions.filter (completer.keepsToken tokens core.position before)
  kept.map fun suggestion => (start, stop, suggestion)

theorem shown_proposalsOf {tokens : List Token} (offer : Offer) :
    (completer.proposalsOf buffer tokens offer offer.rereads).1.map Proposal.shown =
      completer.shownOf buffer tokens offer.core := by
  rw [proposalsOf_eq, List.map_map, keptOf_of_le (by omega), stopOf, if_neg (by rw [Offer.rereads]; omega)]
  rfl

theorem shown_proposalsOfAll {tokens : List Token} {offers : List Offer} {budget : Nat}
    (enough : (offers.map Offer.rereads).sum ≤ budget) :
    (completer.proposalsOfAll buffer tokens offers budget).1.map Proposal.shown =
      (offers.map Offer.core).flatMap (completer.shownOf buffer tokens) := by
  rw [proposalsOfAll_of_le enough, List.map_flatMap, List.flatMap_map]
  exact List.flatMap_congr fun offer _ => shown_proposalsOf offer

theorem shownOf_of_terminal {grammar : Grammar} {core : Offer.Core}
    (terminal : core.element.symbol.isTerminal = true) (tokens : List Token) :
    ({ completer with grammar } : Completer).shownOf buffer tokens core =
      completer.shownOf buffer tokens core := by
  have reach : ({ completer with grammar } : Completer).reachEnd? buffer.content
      (buffer.caret - core.typed.utf8ByteSize) core.element = completer.reachEnd? buffer.content
      (buffer.caret - core.typed.utf8ByteSize) core.element := by
    simp only [reachEnd?, Element.reach_of_terminal terminal grammar completer.grammar]
  rw [shownOf, reach]
  rfl

/-- What is seen of all proposals depends on what is offered alone, if there is budget. -/
theorem shown_of_chart {rule : String} (charted : completer.chart buffer rule = .ok chart)
    (affords : completer.Affords buffer chart) : completer.shown buffer rule =
      .ok ↑(((completer.offers buffer chart).map Offer.core).flatMap
        (completer.shownOf buffer chart.tokens)) := by
  rw [shown, proposals, collect, charted, ← shown_proposalsOfAll affords]
  rfl

theorem affords_of_perm {grammar : Grammar}
    (same : ((({ completer with grammar } : Completer).offers buffer other).map Offer.core).Perm
      ((completer.offers buffer chart).map Offer.core)) (affords : completer.Affords buffer chart) :
    ({ completer with grammar } : Completer).Affords buffer other := by
  have sums := (same.map fun core => 1 + if core.position = 0 then 0 else core.suggestions.length).sum_nat
  rw [List.map_map, List.map_map] at sums
  exact Nat.le_trans (Nat.le_of_eq sums) affords

/-- The tokens of a request, whatever the grammar. -/
def request (completer : Completer) (buffer : Buffer) : Except RequestError (List Token) :=
  (checkCaret buffer).bind fun _ => completer.prefixTokens buffer.beforeCaret

theorem request_grammar (grammar : Grammar) :
    ({ completer with grammar } : Completer).request buffer = completer.request buffer := rfl

theorem chart_of_found {rule : String} {start : Nat} (found : completer.grammar.findRule rule = .ok start) :
    completer.chart buffer rule =
      (completer.request buffer).map (Chart.parse completer.grammar start) := by
  rw [Completer.chart, found, request]
  cases checkCaret buffer with
  | error => rfl
  | ok => cases completer.prefixTokens buffer.beforeCaret <;> rfl

theorem shown_eq (completer : Completer) (buffer : Buffer) (rule : String) : completer.shown buffer rule =
    ((completer.proposals buffer rule).map (·.map Proposal.shown)).map Multiset.ofList := by
  rw [shown]
  cases completer.proposals buffer rule <;> rfl

theorem shown_of_error {rule : String} {failure : RequestError}
    (charted : completer.chart buffer rule = .error failure) :
    completer.shown buffer rule = .error failure := by
  rw [shown, proposals, collect, charted]
  rfl

/-- With grammars that are the same but for the places of their rules, the same is proposed. -/
theorem shown_renamed {grammar : Grammar} {rule : String} {start : Nat}
    (renamed : completer.grammar.Renamed σ grammar) (plain : completer.source.Plain answers)
    (found : completer.grammar.findRule rule = .ok start) (image : grammar.findRule rule = .ok (σ start))
    (affords : ∀ chart, completer.chart buffer rule = .ok chart → completer.Affords buffer chart) :
    ({ completer with grammar } : Completer).shown buffer rule = completer.shown buffer rule := by
  have charted := @chart_of_found completer buffer rule start found
  have imageCharted := @chart_of_found { completer with grammar } buffer rule (σ start) image
  rw [request_grammar] at imageCharted
  cases read : completer.request buffer with
  | error failure =>
    rw [read] at charted imageCharted
    rw [shown_of_error charted, shown_of_error imageCharted]
  | ok tokens =>
    rw [read] at charted imageCharted
    have twins := Chart.parse_twins renamed start tokens
    have same := @offers_perm completer answers buffer _ _ σ twins rfl grammar plain
    have enough := affords _ charted
    rw [shown_of_chart charted enough, shown_of_chart imageCharted (affords_of_perm same enough)]
    refine congrArg _ (Multiset.coe_eq_coe.mpr (same.flatMap fun core offered => .of_eq ?_))
    exact shownOf_of_terminal (terminal_of_offered plain (same.mem_iff.mp offered)) tokens

end Completer

namespace Sample

/-- Calls of named functions, as they are declared. -/
def callDecls : List RuleDecl :=
  [rule "call"
    [⟨none, [Form.element (.token "NAME"), Form.element (.literal "("),
      Form.element (.rule "args") "?", Form.element (.literal ")")]⟩],
   rule "args"
    [⟨none, [Form.element (.token "NAME"),
      Form.element (.block [.plain [.literal ",", .token "NAME"]]) "*"]⟩]]

/-- The same calls without a block. -/
def tailDecls : List RuleDecl :=
  [rule "call"
    [⟨none, [Form.element (.token "NAME"), Form.element (.literal "("),
      Form.element (.rule "args") "?", Form.element (.literal ")")]⟩],
   rule "args" [⟨none, [Form.element (.token "NAME"), Form.element (.rule "tail") "*"]⟩],
   rule "tail" [.plain [.literal ",", .token "NAME"]]]

theorem tailDecls_extracts : RuleDecl.Extracts "tail" callDecls tailDecls :=
  @RuleDecl.Extracts.inside "tail" [callDecls[0]] [] "args" [.plain [.literal ",", .token "NAME"]] _ _
    (@Form.Extracts.inside _ _ [] [] none none [Form.element (.token "NAME")] [] _ _ "*" .here)
    (by decide) (by decide)

def functionsFor (_ : String) (_ : Nat) (element : Element) : Except String (List Suggestion) :=
  match element.symbol with
  | .token "NAME" _ => .ok [{ content := "sin" }, { content := "sqrt", description := some "root" }]
  | .literal text _ => .ok [{ content := text }]
  | _ => .ok []

theorem functions_plain : functions.Plain functionsFor where
  terminal _ _ _ := rfl
  rule site _ rule := by
    rw [functions]
    cases kind : site.element.symbol with
    | rule => rfl
    | literal | token | noneOf | any => cases kind ▸ rule

end Sample

namespace Completer

variable {completer : Completer} {answers : String → Nat → Element → Except String (List Suggestion)}

/-- A block inside a parser rule is transparent. If its alternatives are moved to a new rule that is declared
last, and a reference takes its place, then there is a grammar still, and the same is proposed, if in another
order, as long as the budget is not used up. -/
theorem proposals_extracts {vocabulary : Vocabulary} {name : String} {decls others : List RuleDecl}
    (extracts : RuleDecl.Extracts name decls others)
    (compiled : Grammar.compile vocabulary decls = .ok completer.grammar)
    (plain : completer.source.Plain answers) :
    ∃ grammar, Grammar.compile vocabulary others = .ok grammar ∧
      ∀ buffer, ∀ rule ∈ decls.map RuleDecl.name,
        (∀ chart, completer.chart buffer rule = .ok chart → completer.Affords buffer chart) →
        ({ completer with grammar } : Completer).shown buffer rule = completer.shown buffer rule := by
  obtain ⟨grammar, σ, compiledOthers, renamed, places⟩ := Grammar.compile_extracts extracts compiled
  refine ⟨grammar, compiledOthers, fun buffer rule declared affords => ?_⟩
  obtain ⟨start, found, image⟩ := places rule declared
  exact shown_renamed renamed plain found image affords

/-- What follows the first argument of a call may have a name of its own. -/
theorem proposals_extracts_call :
    let completer := Sample.callCompleter
    RuleDecl.Extracts "tail" Sample.callDecls Sample.tailDecls ∧
      Grammar.compile Sample.callVocabulary Sample.callDecls = .ok completer.grammar ∧
      completer.source.Plain Sample.functionsFor ∧
      ∃ grammar, Grammar.compile Sample.callVocabulary Sample.tailDecls = .ok grammar ∧
        ({ completer with grammar } : Completer).shown (.atEnd "s(b ,") "call" =
          .ok {(5, 5, { content := "sin" }), (5, 5, { content := "sqrt", description := some "root" }),
            (4, 5, { content := ")" }), (4, 5, { content := "," })} := by
  intro completer
  have compiled : Grammar.compile Sample.callVocabulary Sample.callDecls = .ok completer.grammar := by
    decide +kernel
  have affords : (completer.chart (.atEnd "s(b ,") "call").toOption.all fun chart =>
      completer.Affords (.atEnd "s(b ,") chart := by decide +kernel
  obtain ⟨grammar, compiledTail, same⟩ :=
    proposals_extracts Sample.tailDecls_extracts compiled Sample.functions_plain
  refine ⟨Sample.tailDecls_extracts, compiled, Sample.functions_plain, grammar, compiledTail, ?_⟩
  rw [same (.atEnd "s(b ,") "call" (by decide) fun chart charted => ?_]
  · have proposed : (completer.proposals (.atEnd "s(b ,") "call").map (·.map Proposal.shown) =
        .ok [(5, 5, { content := "sin" }), (5, 5, { content := "sqrt", description := some "root" }),
          (4, 5, { content := ")" }), (4, 5, { content := "," })] := by decide +kernel
    rw [shown_eq, proposed]
    rfl
  · rw [charted] at affords
    exact of_decide_eq_true affords

end Completer

end Typeahead
