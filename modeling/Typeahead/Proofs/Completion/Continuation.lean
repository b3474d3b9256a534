import Typeahead.Completion.Site
import Typeahead.Grammar.Sample
import Typeahead.Proofs.Chart.Climbing
import Typeahead.Proofs.Grammar.Spelling

/-!
What may follow an element up to the end of the start rule, and that it begins with the literals that are
mandatory there.
-/

open Computability

namespace Typeahead

namespace Grammar

/-- What may stand behind an occurrence of an element in its alternative: the element again, as often as
it may repeat, and the elements behind it. -/
def behind (grammar : Grammar) (rule alternative index : Nat) : Language Piece :=
  ((grammar.element? rule alternative index).elim 0 fun element =>
    element.multiplicity.ahead (element.symbol.spelling grammar grammar.spelling)) *
    Element.spellings grammar grammar.spelling
      ((grammar.elements rule alternative).drop (index + 1))

/-- What may follow the innermost of some levels, up to the end of the outermost one. -/
def continuation (grammar : Grammar) (levels : List Level) : Language Piece :=
  (levels.map fun level =>
    grammar.behind level.item.rule level.item.alternative level.item.index).prod

end Grammar

namespace Site

variable {grammar : Grammar} {outer : List String} {others : Language Piece}

theorem nil_mem_ahead (multiplicity : Multiplicity) (language : Language Piece) :
    [] ∈ multiplicity.ahead language := by
  unfold Multiplicity.ahead
  split
  · exact Language.nil_mem_kstar _
  · exact Language.nil_mem_one

/-- The literals along an alternative are followed by what must come behind it, unless something unknown
comes before. -/
theorem literalsAlong_begins (begins : ∀ word ∈ others, outer.map Piece.literal <+: word)
    (multiplicity : Multiplicity) (language : Language Piece) (rest : List Element)
    {word : List Piece} (given : word ∈ multiplicity.ahead language *
      (Element.spellings grammar grammar.spelling rest * others)) :
    (literalsAlong grammar outer multiplicity rest).map Piece.literal <+: word := by
  induction rest generalizing multiplicity language word with
  | nil =>
    rw [literalsAlong]
    split
    · exact List.nil_prefix
    · rename_i single
      rw [Multiplicity.ahead, if_neg single, one_mul, Element.spellings_nil, one_mul] at given
      exact begins word given
  | cons next rest ih =>
    rw [literalsAlong]
    split
    · exact List.nil_prefix
    · rename_i required
      simp only [Bool.or_eq_true, not_or] at required
      rw [Multiplicity.ahead, if_neg required.1, one_mul, Element.spellings_cons, mul_assoc] at given
      obtain ⟨front, inFront, back, inBack, rfl⟩ := Language.mem_mul.mp given
      have foresees := grammar.foresee_foresees next
      dsimp only
      split
      · exact (foresees.begins front inFront).trans (List.prefix_append front back)
      · rename_i goes
        have exact := foresees.exact (by simpa using goes) front inFront
        rw [exact, List.map_append, List.prefix_append_right_inj]
        exact ih next.multiplicity 1 (Language.append_mem_mul (nil_mem_ahead _ _) inBack)

theorem literalsBehind_begins (levels : List Level)
    (placed : ∀ level ∈ levels, grammar.element? level.item.rule level.item.alternative
      level.item.index = some level.element)
    {word : List Piece} (given : word ∈ grammar.continuation levels) :
    (literalsBehind grammar levels).map Piece.literal <+: word := by
  induction levels generalizing word with
  | nil => exact List.nil_prefix
  | cons level enclosing ih =>
    have outer : ∀ word ∈ grammar.continuation enclosing,
        (literalsBehind grammar enclosing).map Piece.literal <+: word :=
      fun _ => ih fun other listed => placed other (List.mem_cons_of_mem _ listed)
    rw [Grammar.continuation, List.map_cons, List.prod_cons, Grammar.behind,
      placed level List.mem_cons_self, Option.elim_some, mul_assoc] at given
    exact literalsAlong_begins outer _ _ _ given

/-- Whatever follows a site on a path, it begins with the mandatory literals. The levels from the site
on are elements of the grammar, each at its place. -/
theorem mandatoryAfter_begins {start limit : Nat} {tokens : List Token} {id : NodeId} {path : Path}
    (climbed : path ∈ (Chart.parse grammar start tokens).paths limit id) {depth : Nat} {level : Level}
    {enclosing : List Level} (here : path.drop depth = level :: enclosing) :
    (∀ outer ∈ level :: enclosing, grammar.element? outer.item.rule outer.item.alternative
      outer.item.index = some outer.element) ∧
    ∀ word ∈ grammar.continuation (level :: enclosing),
      (mandatoryAfter ⟨grammar, level, enclosing, depth⟩).map Piece.literal <+: word := by
  obtain ⟨ascent, _⟩ := Chart.paths_ascend climbed
  have placed : ∀ outer ∈ level :: enclosing, grammar.element? outer.item.rule
      outer.item.alternative outer.item.index = some outer.element :=
    fun _ listed => ((ascent.drop here).stands_of_mem listed).placed
  exact ⟨placed, fun _ => literalsBehind_begins _ placed⟩

/-- Behind the arguments of a call comes the closing parenthesis. -/
theorem mandatoryAfter_begins_call :
    let tokens : List Token := [⟨⟨1⟩, "sin", 0, .default⟩, ⟨⟨2⟩, "(", 3, .default⟩]
    let argument : Level := ⟨⟨2, 2⟩, ⟨1, 0, 0, false, 2⟩, ⟨none, .token "NAME" ⟨1⟩, .once⟩, 1⟩
    let arguments : Level := ⟨⟨2, 1⟩, ⟨0, 0, 2, false, 0⟩, ⟨none, .rule 1 "args", .optional⟩, 3⟩
    [argument, arguments] ∈ (Chart.parse Sample.callGrammar 0 tokens).paths 1 ⟨2, 2⟩ ∧
      ∀ word ∈ Sample.callGrammar.continuation [arguments], [Piece.literal ")"] <+: word := by
  intro tokens argument arguments
  have climbed : [argument, arguments] ∈
      (Chart.parse Sample.callGrammar 0 tokens).paths 1 ⟨2, 2⟩ := by decide +kernel
  have mandatory : mandatoryAfter ⟨Sample.callGrammar, arguments, [], 1⟩ = [")"] := by decide +kernel
  refine ⟨climbed, fun word given => ?_⟩
  have begins := (mandatoryAfter_begins climbed (show List.drop 1 _ = arguments :: [] from rfl)).2 word
    given
  rw [mandatory] at begins
  exact begins

end Site

end Typeahead
