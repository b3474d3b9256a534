import Typeahead.Proofs.Grammar.Spelling

/-!
Walks that have entered other rules before. They find no more than a fresh walk does, so that what is
foreseen of a kind of token alone says what it adds to any walk.
-/

namespace Typeahead

namespace Walk

variable {grammar : Grammar} {walk next other further : Walk}

/-- A walk goes on as far as another one does, or stops on the way. -/
def Lags (walk next other further : Walk) : Prop :=
  ∃ less more, next.found = walk.found ++ less ∧ further.found = other.found ++ more ∧ less <+: more ∧
    (next.stopped = false →
      less = more ∧ further.stopped = false ∧ further.entered ⊆ next.entered)

theorem lags_stop (walk : Walk) {more : List String} (found : further.found = other.found ++ more) :
    Lags walk walk.stop other further :=
  ⟨[], more, (List.append_nil _).symm, found, List.nil_prefix, fun goes => nomatch goes⟩

theorem Lags.stopped (lags : Lags walk next other further) (ended : next.stopped = true) {last : Walk}
    {more : List String} (found : last.found = further.found ++ more) : Lags walk next other last := by
  obtain ⟨less, first, foundLess, foundFirst, shorter, _⟩ := lags
  refine ⟨less, first ++ more, foundLess, by rw [found, foundFirst, List.append_assoc],
    shorter.trans (List.prefix_append first more), fun goes => ?_⟩
  rw [ended] at goes
  cases goes

theorem Lags.trans (lags : Lags walk next other further) (goes : next.stopped = false)
    {last latest : Walk} (others : Lags next last further latest) : Lags walk last other latest := by
  obtain ⟨first, _, found, foundOther, _, same⟩ := lags
  obtain ⟨rfl, _⟩ := same goes
  obtain ⟨less, more, foundLess, foundMore, shorter, alike⟩ := others
  refine ⟨first ++ less, first ++ more, by rw [foundLess, found, List.append_assoc],
    by rw [foundMore, foundOther, List.append_assoc], (List.prefix_append_right_inj _).mpr shorter,
    fun goes => ?_⟩
  obtain ⟨rfl, rest⟩ := alike goes
  exact ⟨rfl, rest⟩

/-- One walk is on its way, and has entered all rules that another one has. -/
structure Behind (walk other : Walk) : Prop where
  unstopped : walk.stopped = false
  otherUnstopped : other.stopped = false
  entered : other.entered ⊆ walk.entered

theorem lags_self (behind : walk.Behind other) (text : List String) :
    Lags walk { walk with found := walk.found ++ text } other { other with found := other.found ++ text } :=
  ⟨text, text, rfl, rfl, List.prefix_rfl, fun _ => ⟨rfl, behind.otherUnstopped, behind.entered⟩⟩

section Steps

variable {fuel larger : Nat} (enters : ∀ target walk other, Behind walk other →
  Lags walk (rule grammar fuel target walk) other (rule grammar larger target other))

include enters

theorem symbol_lags (behind : walk.Behind other) (symbol : Symbol) :
    Lags walk (Walk.symbol grammar (rule grammar fuel) walk symbol) other
      (Walk.symbol grammar (rule grammar larger) other symbol) := by
  cases symbol with
  | literal text id => exact lags_self behind [text]
  | token name id =>
    simp only [Walk.symbol]
    split
    · exact enters _ walk other behind
    · exact lags_stop walk (List.append_nil _).symm
  | rule target name => exact enters target walk other behind
  | noneOf | any => exact lags_stop walk (List.append_nil _).symm

theorem element_lags (behind : walk.Behind other) (element : Element) :
    Lags walk (Walk.element grammar (rule grammar fuel) walk element) other
      (Walk.element grammar (rule grammar larger) other element) := by
  have occurs := symbol_lags enters behind element.symbol
  rw [Walk.element, Walk.element]
  cases element.multiplicity with
  | once => exact occurs
  | plus =>
    obtain ⟨less, more, foundLess, foundMore, shorter, _⟩ := occurs
    exact ⟨less, more, foundLess, foundMore, shorter, fun goes => by cases goes⟩
  | optional | star => exact lags_stop walk (List.append_nil _).symm

theorem elements_lags (behind : walk.Behind other) (elements : List Element) :
    Lags walk (Walk.elements grammar (rule grammar fuel) walk elements) other
      (Walk.elements grammar (rule grammar larger) other elements) := by
  induction elements generalizing walk other with
  | nil =>
    exact ⟨[], [], (List.append_nil _).symm, (List.append_nil _).symm, List.prefix_rfl,
      fun _ => ⟨rfl, behind.otherUnstopped, behind.entered⟩⟩
  | cons element elements ih =>
    have first := element_lags enters behind element
    simp only [Walk.elements]
    cases ended : (Walk.element grammar (rule grammar fuel) walk element).stopped with
    | true =>
      rw [if_pos rfl]
      split
      · exact first
      · obtain ⟨more, found, _⟩ : Leads _ (Walk.elements grammar (rule grammar larger)
            (Walk.element grammar (rule grammar larger) other element) elements) _ :=
          elements_leads (rule_leads larger) _ elements
        exact first.stopped ended found
    | false =>
      obtain ⟨_, _, _, _, _, same⟩ := first
      obtain ⟨_, goes, entered⟩ := same ended
      rw [if_neg (by simp), goes, if_neg (by simp)]
      exact (element_lags enters behind element).trans ended (ih ⟨ended, goes, entered⟩)

end Steps

theorem rule_lags {fuel larger : Nat} (enough : fuel ≤ larger) (target : Nat) (walk other : Walk)
    (behind : walk.Behind other) :
    Lags walk (rule grammar fuel target walk) other (rule grammar larger target other) := by
  induction fuel generalizing larger target walk other with
  | zero =>
    obtain ⟨more, found, _⟩ : Leads other (rule grammar larger target other) _ := rule_leads larger target other
    exact lags_stop walk found
  | succ fuel ih =>
    obtain ⟨larger, rfl⟩ : ∃ less, larger = less + 1 := ⟨larger - 1, by omega⟩
    have deeper : ∀ target walk other, Behind walk other →
        Lags walk (rule grammar fuel target walk) other (rule grammar larger target other) :=
      fun target walk other => ih (by omega) target walk other
    by_cases old : walk.entered.contains target = true
    · obtain ⟨more, found, _⟩ : Leads other (rule grammar (larger + 1) target other) _ :=
        rule_leads (larger + 1) target other
      rw [rule, if_pos old]
      exact lags_stop walk found
    · have new : ¬ other.entered.contains target = true := fun listed => old
        (List.contains_iff_mem.mpr (behind.entered (List.contains_iff_mem.mp listed)))
      rw [rule, rule, if_neg old, if_neg new]
      split
      · rename_i alternative _
        have inside : Behind { walk with entered := target :: walk.entered }
            { other with entered := target :: other.entered } :=
          ⟨behind.unstopped, behind.otherUnstopped, List.cons_subset_cons target behind.entered⟩
        exact elements_lags deeper inside alternative.elements
      · exact lags_stop { walk with entered := target :: walk.entered } (List.append_nil _).symm

end Walk

/-- What is foreseen of a kind of token is nothing, or a literal that has the id of that kind. -/
def Grammar.WholeTokens (grammar : Grammar) : Prop :=
  ∀ rule ∈ grammar.rules, rule.origin = .lexer → ∀ id, grammar.vocabulary.nameId? rule.name = some id →
    grammar.foresee ⟨none, .token rule.name id, .once⟩ = ⟨[], true⟩ ∨
      ∃ text, (grammar.foresee ⟨none, .token rule.name id, .once⟩).literals = [text] ∧
        grammar.vocabulary.literalId? text = some id

/-- A walk stops at a kind of token, or else finds one literal there that has the id of that kind. -/
theorem Grammar.WholeTokens.found {grammar : Grammar} (whole : grammar.WholeTokens) {name : String}
    {rule : Nat} {id : TokenId} (leads : Walk.ruleOfToken? grammar name = some rule)
    (named : grammar.vocabulary.nameId? name = some id) {fuel : Nat}
    (enough : fuel ≤ grammar.rules.length) {walk : Walk} (goes : walk.stopped = false) :
    ((Walk.rule grammar fuel rule walk).found = walk.found ∧
      (Walk.rule grammar fuel rule walk).stopped = true) ∨
    ∃ text, (Walk.rule grammar fuel rule walk).found = walk.found ++ [text] ∧
      grammar.vocabulary.literalId? text = some id := by
  have behind : walk.Behind {} := ⟨goes, rfl, List.nil_subset _⟩
  obtain ⟨less, more, foundLess, foundMore, shorter, same⟩ : Walk.Lags walk
      (Walk.rule grammar fuel rule walk) {} (Walk.rule grammar grammar.rules.length rule {}) :=
    Walk.rule_lags enough rule walk {} behind
  have foresight : grammar.foresee ⟨none, .token name id, .once⟩ =
      ⟨more, (Walk.rule grammar grammar.rules.length rule {}).stopped⟩ := by
    rw [List.nil_append] at foundMore
    simp only [Grammar.foresee, Walk.element, Walk.symbol, leads, foundMore]
  obtain ⟨index, lexical⟩ := Option.filter_eq_some_iff.mp leads
  obtain ⟨inside, sameName, _⟩ := List.findIdx?_eq_some_iff_getElem.mp index
  rw [List.getElem?_eq_getElem inside, Option.any_some] at lexical
  have seen := whole _ (List.getElem_mem inside) (eq_of_beq lexical) id
  rw [eq_of_beq sameName, foresight] at seen
  have halts : less ≠ more ∨ (Walk.rule grammar grammar.rules.length rule {}).stopped = true →
      (Walk.rule grammar fuel rule walk).stopped = true := by
    intro either
    by_contra unstopped
    obtain ⟨alike, goes, _⟩ := same (by simpa using unstopped)
    rcases either with differ | ended
    · exact differ alike
    · rw [goes] at ended
      cases ended
  rcases seen named with nothing | ⟨text, single, known⟩
  · have empty : more = [] := congrArg Foresight.literals nothing
    have ended : (Walk.rule grammar grammar.rules.length rule {}).stopped = true :=
      congrArg Foresight.stops nothing
    rw [empty, List.prefix_nil] at shorter
    exact .inl ⟨by rw [foundLess, shorter, List.append_nil], halts (.inr ended)⟩
  · have single : more = [text] := single
    subst single
    cases less with
    | nil => exact .inl ⟨by rw [foundLess, List.append_nil], halts (.inl (List.cons_ne_nil text []).symm)⟩
    | cons first others =>
      obtain ⟨rfl, rest⟩ := List.cons_prefix_cons.mp shorter
      rw [List.prefix_nil.mp rest] at foundLess
      exact .inr ⟨first, foundLess, known⟩

end Typeahead
