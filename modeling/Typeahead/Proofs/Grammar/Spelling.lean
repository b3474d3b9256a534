import Typeahead.Grammar.Mandatory
import Typeahead.Proofs.Grammar.Language

/-!
Sentences as they are spelled: a literal is its text, a kind of token is what the lexer rule of its name
says, and all else is unknown. What a walk over elements finds, all their spellings begin with.
-/

open Computability

namespace Typeahead

inductive Piece where
  | literal (text : String)
  | unknown
deriving DecidableEq

/-- The place of the lexer rule with the given name. -/
def Grammar.lexerRule? (grammar : Grammar) (name : String) : Option Nat :=
  grammar.rules.findIdx? fun rule => rule.name == name && rule.origin == .lexer

/-- The spellings of one occurrence, where `known` says how rules are spelled. -/
def Symbol.spelling (grammar : Grammar) (known : Nat → Language Piece) : Symbol → Language Piece
  | .literal text _ => {[.literal text]}
  | .token name _ => (grammar.lexerRule? name).elim {[.unknown]} known
  | .rule target _ => known target
  | .noneOf _ | .any => {[.unknown]}

namespace Element

def spelling (grammar : Grammar) (known : Nat → Language Piece) (element : Element) : Language Piece :=
  element.multiplicity.repeated (element.symbol.spelling grammar known)

/-- The spellings of all elements, one element behind the other. -/
def spellings (grammar : Grammar) (known : Nat → Language Piece) (elements : List Element) :
    Language Piece :=
  (elements.map (·.spelling grammar known)).prod

variable {grammar : Grammar} {known : Nat → Language Piece}

@[simp]
theorem spellings_nil : spellings grammar known [] = 1 := rfl

@[simp]
theorem spellings_cons (element : Element) (elements : List Element) :
    spellings grammar known (element :: elements) =
      element.spelling grammar known * spellings grammar known elements := by
  simp [spellings]

end Element

namespace Grammar

/-- A rule is spelled as one of its alternatives, where references are spelled in ways that are known of
their rules. -/
inductive Spells (grammar : Grammar) : (rule : Nat) → (word : List Piece) → Prop where
  | of_alternative {rule : Nat} {word : List Piece} {alternative : Alternative}
      (known : Nat → Language Piece)
      (spelled : ∀ target piece, piece ∈ known target → grammar.Spells target piece)
      (declared : alternative ∈ grammar.alternatives rule)
      (matched : word ∈ Element.spellings grammar known alternative.elements) :
      grammar.Spells rule word

def spelling (grammar : Grammar) (rule : Nat) : Language Piece := {word | grammar.Spells rule word}

end Grammar

section Monotone

variable {grammar : Grammar} {smaller larger : Nat → Language Piece}

theorem Symbol.spelling_mono (included : ∀ rule, smaller rule ≤ larger rule) (symbol : Symbol) :
    symbol.spelling grammar smaller ≤ symbol.spelling grammar larger := by
  cases symbol with
  | literal | noneOf | any => exact le_rfl
  | rule target => exact included target
  | token name =>
    rw [spelling, spelling]
    cases grammar.lexerRule? name with
    | none => exact le_rfl
    | some rule => exact included rule

theorem Element.spellings_mono (included : ∀ rule, smaller rule ≤ larger rule)
    (elements : List Element) :
    spellings grammar smaller elements ≤ spellings grammar larger elements := by
  induction elements with
  | nil => exact le_rfl
  | cons element elements ih =>
    rw [spellings_cons, spellings_cons]
    exact mul_le_mul' (element.multiplicity.repeated_mono (element.symbol.spelling_mono included)) ih

theorem Grammar.mem_spelling {rule : Nat} {word : List Piece} (spelled : word ∈ grammar.spelling rule) :
    ∃ alternative ∈ grammar.alternatives rule,
      word ∈ Element.spellings grammar grammar.spelling alternative.elements := by
  obtain ⟨known, spelled, declared, matched⟩ := spelled
  exact ⟨_, declared, Element.spellings_mono spelled _ matched⟩

end Monotone

/-- All words begin with the literals, and if the whole is known, no word goes on behind them. -/
structure Foresees (literals : List String) (whole : Bool) (language : Language Piece) : Prop where
  begins : ∀ word ∈ language, literals.map Piece.literal <+: word
  exact : whole = true → ∀ word ∈ language, word = literals.map Piece.literal

namespace Walk

variable {grammar : Grammar} {walk next : Walk} {language : Language Piece}

/-- What a walk adds to another is foreseen of a language. -/
def Leads (walk next : Walk) (language : Language Piece) : Prop :=
  ∃ added, next.found = walk.found ++ added ∧ Foresees added (!next.stopped) language

theorem leads_stop (walk : Walk) (language : Language Piece) : walk.Leads walk.stop language :=
  ⟨[], (List.append_nil _).symm, fun _ _ => List.nil_prefix, fun whole => nomatch whole⟩

theorem leads_self (walk : Walk) : walk.Leads walk 1 :=
  ⟨[], (List.append_nil _).symm, fun _ _ => List.nil_prefix, fun _ _ given => given⟩

theorem Leads.mono {smaller : Language Piece} (leads : walk.Leads next language)
    (included : smaller ≤ language) : walk.Leads next smaller := by
  obtain ⟨added, found, begins, exact⟩ := leads
  exact ⟨added, found, fun word given => begins word (included given),
    fun whole word given => exact whole word (included given)⟩

/-- A walk that stops may leave anything behind. -/
theorem Leads.stopped (leads : walk.Leads next language) (ended : next.stopped = true)
    (others : Language Piece) : walk.Leads next (language * others) := by
  obtain ⟨added, found, begins, _⟩ := leads
  refine ⟨added, found, fun word given => ?_, fun whole => by rw [ended] at whole; cases whole⟩
  obtain ⟨front, inFront, back, _, rfl⟩ := Language.mem_mul.mp given
  exact (begins front inFront).trans (List.prefix_append front back)

theorem Leads.trans {later : Walk} {others : Language Piece} (leads : walk.Leads next language)
    (unstopped : next.stopped = false) (more : next.Leads later others) :
    walk.Leads later (language * others) := by
  obtain ⟨first, foundFirst, _, exactFirst⟩ := leads
  obtain ⟨second, foundSecond, beginsSecond, exactSecond⟩ := more
  refine ⟨first ++ second, by rw [foundSecond, foundFirst, List.append_assoc], ?_, ?_⟩
  · intro word given
    obtain ⟨front, inFront, back, inBack, rfl⟩ := Language.mem_mul.mp given
    rw [exactFirst (by rw [unstopped]; rfl) front inFront, List.map_append]
    exact (List.prefix_append_right_inj _).mpr (beginsSecond back inBack)
  · intro whole word given
    obtain ⟨front, inFront, back, inBack, rfl⟩ := Language.mem_mul.mp given
    rw [exactFirst (by rw [unstopped]; rfl) front inFront, exactSecond whole back inBack,
      List.map_append]

theorem leads_stopped_stop (leads : walk.Leads next language) : walk.Leads next.stop language := by
  obtain ⟨added, found, begins, _⟩ := leads
  exact ⟨added, found, begins, fun whole => nomatch whole⟩

/-- A token kind that leads into a rule leads into the lexer rule of its name. -/
theorem lexerRule?_of_ruleOfToken? {name : String} {rule : Nat}
    (leads : ruleOfToken? grammar name = some rule) : grammar.lexerRule? name = some rule := by
  obtain ⟨named, lexical⟩ := Option.filter_eq_some_iff.mp leads
  obtain ⟨inside, same, before⟩ := List.findIdx?_eq_some_iff_getElem.mp named
  refine List.findIdx?_eq_some_iff_getElem.mpr ⟨inside, ?_, fun place earlier => ?_⟩
  · rw [List.getElem?_eq_getElem inside, Option.any_some] at lexical
    rw [same, lexical]
    rfl
  · have other := before place earlier
    simp only [Bool.not_eq_true] at other
    rw [other]
    simp

section Steps

variable {enter : Nat → Walk → Walk}
  (enters : ∀ target walk, Leads walk (enter target walk) (grammar.spelling target))

include enters

theorem symbol_leads (walk : Walk) (symbol : Symbol) :
    walk.Leads (Walk.symbol grammar enter walk symbol)
      (symbol.spelling grammar grammar.spelling) := by
  cases symbol with
  | literal text id =>
    refine ⟨[text], rfl, fun word given => ?_, fun _ word given => given⟩
    rw [show word = [.literal text] from given]
    exact List.prefix_rfl
  | token name id =>
    rw [Walk.symbol]
    split
    · rename_i rule leads
      rw [Symbol.spelling, lexerRule?_of_ruleOfToken? leads]
      exact enters rule walk
    · exact walk.leads_stop _
  | rule target name => exact enters target walk
  | noneOf | any => exact walk.leads_stop _

theorem element_leads (walk : Walk) (element : Element) :
    walk.Leads (Walk.element grammar enter walk element)
      (element.spelling grammar grammar.spelling) := by
  have occurs := symbol_leads enters walk element.symbol
  rw [Walk.element, Element.spelling]
  cases element.multiplicity with
  | once => exact occurs
  | plus => exact (leads_stopped_stop occurs).stopped rfl _
  | optional | star => exact walk.leads_stop _

theorem elements_leads (walk : Walk) (elements : List Element) :
    walk.Leads (Walk.elements grammar enter walk elements)
      (Element.spellings grammar grammar.spelling elements) := by
  induction elements generalizing walk with
  | nil => exact walk.leads_self
  | cons element rest ih =>
    have first := element_leads enters walk element
    rw [Element.spellings_cons]
    simp only [Walk.elements]
    split
    · rename_i ended
      exact first.stopped ended _
    · rename_i unstopped
      exact first.trans (by simpa using unstopped) (ih _)

end Steps

/-- A rule with a single alternative is spelled as that, and nothing is foreseen of others. -/
theorem rule_leads (fuel target : Nat) (walk : Walk) :
    walk.Leads (Walk.rule grammar fuel target walk) (grammar.spelling target) := by
  induction fuel generalizing target walk with
  | zero => exact walk.leads_stop _
  | succ fuel ih =>
    rw [Walk.rule]
    split
    · exact walk.leads_stop _
    · split
      · rename_i alternative single
        refine Leads.mono (elements_leads ih { walk with entered := target :: walk.entered }
          alternative.elements) fun word given => ?_
        obtain ⟨declared, listed, matched⟩ := Grammar.mem_spelling given
        rw [single, List.mem_singleton] at listed
        exact listed ▸ matched
      · exact leads_stop { walk with entered := target :: walk.entered } _

end Walk

/-- What is foreseen of an element, all of its spellings begin with. -/
theorem Grammar.foresee_foresees (grammar : Grammar) (element : Element) :
    Foresees (grammar.foresee element).literals (!(grammar.foresee element).stops)
      (element.spelling grammar grammar.spelling) := by
  obtain ⟨added, found, foresees⟩ :=
    Walk.element_leads (Walk.rule_leads grammar.rules.length) {} element
  have same : (grammar.foresee element).literals = added := found
  rw [same]
  exact foresees

end Typeahead
