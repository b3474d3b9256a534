import Mathlib.Computability.Language
import Mathlib.Order.CompletePartialOrder
import Typeahead.Grammar.Basic

/-!
The languages of rules, over the ids of tokens. A rule derives the words of its alternatives, where
each element stands for as many words of its symbol as its multiplicity allows.
-/

open Computability

namespace Typeahead

namespace Multiplicity

variable {α : Type}

/-- As many words of a language, one behind the other, as may occur. -/
def repeated (language : Language α) : Multiplicity → Language α
  | once => language
  | optional => 1 + language
  | star => language∗
  | plus => language * language∗

/-- The words of a language that stand behind each other once at least one has occurred. -/
def begun (language : Language α) (multiplicity : Multiplicity) : Language α :=
  if multiplicity.isRepeatable then language * language∗ else language

/-- The words of a language that stand in front of one more. -/
def ahead (language : Language α) (multiplicity : Multiplicity) : Language α :=
  if multiplicity.isRepeatable then language∗ else 1

theorem repeated_mono {smaller larger : Language α} (included : smaller ≤ larger)
    (multiplicity : Multiplicity) : multiplicity.repeated smaller ≤ multiplicity.repeated larger := by
  cases multiplicity with
  | once => exact included
  | optional => exact add_le_add_right included 1
  | star => exact kstar_mono included
  | plus => exact mul_le_mul' included (kstar_mono included)

theorem begun_le_repeated (language : Language α) (multiplicity : Multiplicity) :
    multiplicity.begun language ≤ multiplicity.repeated language := by
  cases multiplicity with
  | once => exact le_rfl
  | optional => exact le_add_self
  | star => exact mul_kstar_le_kstar
  | plus => exact le_rfl

theorem one_le_repeated (language : Language α) (multiplicity : Multiplicity)
    (omissible : multiplicity.isOptional = true) : 1 ≤ multiplicity.repeated language := by
  cases multiplicity with
  | once => simp [isOptional] at omissible
  | optional => exact le_self_add
  | star => exact one_le_kstar
  | plus => simp [isOptional] at omissible

/-- An element that has matched its repetitions has been left out or has occurred. -/
theorem repeated_le (language : Language α) (multiplicity : Multiplicity) :
    multiplicity.repeated language ≤
      (if multiplicity.isOptional then 1 else 0) + multiplicity.begun language := by
  cases multiplicity with
  | once => exact le_add_self
  | optional => exact le_rfl
  | star => exact (Language.one_add_self_mul_kstar_eq_kstar language).ge
  | plus => exact le_add_self

theorem ahead_mul_le_begun (language : Language α) (multiplicity : Multiplicity) :
    multiplicity.ahead language * language ≤ multiplicity.begun language := by
  unfold ahead begun
  split
  · exact (Language.mul_self_kstar_comm language).le
  · exact (one_mul language).le

theorem begun_le_ahead (language : Language α) (multiplicity : Multiplicity)
    (repeatable : multiplicity.isRepeatable = true) :
    multiplicity.begun language ≤ multiplicity.ahead language := by
  simp only [begun, ahead, repeatable, ↓reduceIte]
  exact mul_kstar_le_kstar

end Multiplicity

/-- The words of one token that is accepted. -/
def TokenId.single (accepted : TokenId → Prop) : Language TokenId :=
  {word | ∃ id, accepted id ∧ word = [id]}

theorem TokenId.single_congr {accepted others : TokenId → Prop}
    (same : ∀ id, accepted id ↔ others id) : single accepted = single others := by
  rw [funext fun id => propext (same id)]

/-- Single tokens that a symbol accepts, or the words that are known of the rule it refers to. -/
def Symbol.language (known : Nat → Language TokenId) : Symbol → Language TokenId
  | .rule target _ => known target
  | symbol => TokenId.single (symbol.accepts · = true)

namespace Element

variable {known : Nat → Language TokenId}

def language (known : Nat → Language TokenId) (element : Element) : Language TokenId :=
  element.multiplicity.repeated (element.symbol.language known)

/-- The words of all elements, one element behind the other. -/
def sequence (known : Nat → Language TokenId) (elements : List Element) : Language TokenId :=
  (elements.map (·.language known)).prod

@[simp]
theorem sequence_nil : sequence known [] = 1 := rfl

@[simp]
theorem sequence_cons (element : Element) (elements : List Element) :
    sequence known (element :: elements) = element.language known * sequence known elements := by
  simp [sequence]

theorem sequence_append (front back : List Element) :
    sequence known (front ++ back) = sequence known front * sequence known back := by
  simp [sequence]

end Element

theorem Symbol.language_of_target {symbol : Symbol} {target : Nat}
    (refers : symbol.target? = some target) (known : Nat → Language TokenId) :
    symbol.language known = known target := by
  cases symbol with
  | rule => cases refers; rfl
  | literal | token | noneOf | any => cases refers

theorem Symbol.mem_language_of_terminal {symbol : Symbol} (terminal : symbol.isTerminal = true)
    (known : Nat → Language TokenId) (word : List TokenId) :
    word ∈ symbol.language known ↔ ∃ id, symbol.accepts id = true ∧ word = [id] := by
  cases symbol with
  | rule => cases terminal
  | literal | token | noneOf | any => rfl

namespace Grammar

/-- A rule derives the words of its alternatives, where references stand for words that are known to
be derived. -/
inductive Derives (grammar : Grammar) : (rule : Nat) → (word : List TokenId) → Prop where
  | of_alternative {rule : Nat} {word : List TokenId} {alternative : Alternative}
      (known : Nat → Language TokenId)
      (derived : ∀ target piece, piece ∈ known target → grammar.Derives target piece)
      (declared : alternative ∈ grammar.alternatives rule)
      (matched : word ∈ Element.sequence known alternative.elements) : grammar.Derives rule word

def language (grammar : Grammar) (rule : Nat) : Language TokenId := {word | grammar.Derives rule word}

theorem Derives.of_elements {grammar : Grammar} {rule : Nat} {word : List TokenId}
    {alternative : Alternative} (declared : alternative ∈ grammar.alternatives rule)
    (matched : word ∈ Element.sequence grammar.language alternative.elements) :
    grammar.Derives rule word :=
  .of_alternative grammar.language (fun _ _ known => known) declared matched

end Grammar

end Typeahead
