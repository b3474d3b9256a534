import Mathlib.Data.List.Forall2
import Mathlib.Logic.Equiv.Defs
import Typeahead.Proofs.Grammar.Language

/-!
Grammars that are the same but for the places and the names of their rules. They derive the same.
-/

namespace Typeahead

/-- A symbol refers to the rule that another one refers to, by its new place, or is the same terminal. -/
structure Symbol.Renamed (σ : Nat → Nat) (symbol other : Symbol) : Prop where
  target : other.target? = symbol.target?.map σ
  terminal : symbol.isTerminal = true → other = symbol

structure Element.Renamed (σ : Nat → Nat) (element other : Element) : Prop where
  label : other.label = element.label
  symbol : element.symbol.Renamed σ other.symbol
  multiplicity : other.multiplicity = element.multiplicity

def Alternative.Renamed (σ : Nat → Nat) (alternative other : Alternative) : Prop :=
  List.Forall₂ (Element.Renamed σ) alternative.elements other.elements

/-- Each rule has its alternatives at its new place. -/
def Grammar.Renamed (σ : Equiv.Perm Nat) (grammar other : Grammar) : Prop :=
  ∀ rule, List.Forall₂ (Alternative.Renamed σ) (grammar.alternatives rule)
    (other.alternatives (σ rule))

theorem forall₂_getElem? {α β : Type} {rel : α → β → Prop} {xs : List α} {ys : List β}
    (related : List.Forall₂ rel xs ys) (place : Nat) : Option.Rel rel xs[place]? ys[place]? := by
  induction related generalizing place with
  | nil => exact .none
  | cons first _ ih =>
    cases place with
    | zero => exact .some first
    | succ place => exact ih place

namespace Symbol.Renamed

variable {σ : Nat → Nat} {symbol other : Symbol}

theorem isTerminal_eq (renamed : symbol.Renamed σ other) : other.isTerminal = symbol.isTerminal := by
  rw [isTerminal, isTerminal, renamed.target, Option.isNone_map]

theorem symm {σ : Equiv.Perm Nat} (renamed : symbol.Renamed σ other) : other.Renamed σ.symm symbol where
  target := by
    rw [renamed.target, Option.map_map, Equiv.symm_comp_self, Option.map_id, id]
  terminal terminal := (renamed.terminal (renamed.isTerminal_eq ▸ terminal)).symm

theorem language_eq (renamed : symbol.Renamed σ other) {known given : Nat → Language TokenId}
    (same : ∀ rule, given (σ rule) = known rule) : other.language given = symbol.language known := by
  cases refers : symbol.target? with
  | none =>
    have terminal : symbol.isTerminal = true := by rw [isTerminal, refers]; rfl
    rw [renamed.terminal terminal]
    ext word
    rw [mem_language_of_terminal terminal, mem_language_of_terminal terminal]
  | some target =>
    have renames := renamed.target
    rw [refers, Option.map_some] at renames
    rw [language_of_target refers, language_of_target renames, same]

end Symbol.Renamed

namespace Element.Renamed

variable {σ : Nat → Nat} {element other : Element} {elements others : List Element}
  {known given : Nat → Language TokenId}

theorem symm {σ : Equiv.Perm Nat} (renamed : element.Renamed σ other) :
    other.Renamed σ.symm element where
  label := renamed.label.symm
  symbol := renamed.symbol.symm
  multiplicity := renamed.multiplicity.symm

theorem eq_of_terminal (renamed : element.Renamed σ other)
    (terminal : element.symbol.isTerminal = true) : other = element := by
  have symbol := renamed.symbol.terminal terminal
  obtain ⟨label, _, multiplicity⟩ := renamed
  cases element
  cases other
  cases label
  cases symbol
  cases multiplicity
  rfl

theorem language_eq (renamed : element.Renamed σ other) (same : ∀ rule, given (σ rule) = known rule) :
    other.language given = element.language known := by
  rw [language, language, renamed.symbol.language_eq same, renamed.multiplicity]

theorem sequence_eq (renamed : List.Forall₂ (Element.Renamed σ) elements others)
    (same : ∀ rule, given (σ rule) = known rule) :
    sequence given others = sequence known elements := by
  induction renamed with
  | nil => rfl
  | cons first _ ih => rw [sequence_cons, sequence_cons, first.language_eq same, ih]

end Element.Renamed

namespace Grammar.Renamed

variable {σ : Equiv.Perm Nat} {grammar other : Grammar} {word : List TokenId}

theorem symm (renamed : grammar.Renamed σ other) : other.Renamed σ.symm grammar := by
  intro rule
  have related := renamed (σ.symm rule)
  rw [Equiv.apply_symm_apply] at related
  exact related.flip.imp fun _ _ elements => elements.flip.imp fun _ _ element => element.symm

theorem length_alternatives (renamed : grammar.Renamed σ other) (rule : Nat) :
    (other.alternatives (σ rule)).length = (grammar.alternatives rule).length :=
  (renamed rule).length_eq.symm

theorem elements (renamed : grammar.Renamed σ other) (rule alternative : Nat) :
    List.Forall₂ (Element.Renamed σ) (grammar.elements rule alternative)
      (other.elements (σ rule) alternative) := by
  have related := forall₂_getElem? (renamed rule) alternative
  rw [Grammar.elements, Grammar.elements]
  generalize (grammar.alternatives rule)[alternative]? = choice at related ⊢
  generalize (other.alternatives (σ rule))[alternative]? = renamedChoice at related ⊢
  cases related with
  | none => exact .nil
  | some related => exact related

theorem element? (renamed : grammar.Renamed σ other) (rule alternative index : Nat) :
    Option.Rel (Element.Renamed σ) (grammar.element? rule alternative index)
      (other.element? (σ rule) alternative index) :=
  forall₂_getElem? (renamed.elements rule alternative) index

theorem mem_alternatives (renamed : grammar.Renamed σ other) {rule : Nat} {alternative : Alternative}
    (declared : alternative ∈ grammar.alternatives rule) :
    ∃ choice ∈ other.alternatives (σ rule), alternative.Renamed σ choice := by
  obtain ⟨place, inside, rfl⟩ := List.mem_iff_getElem.mp declared
  have insideOther : place < (other.alternatives (σ rule)).length := by
    rwa [renamed.length_alternatives]
  exact ⟨_, List.getElem_mem insideOther, (renamed rule).get inside insideOther⟩

theorem derives (renamed : grammar.Renamed σ other) {rule : Nat} (derived : grammar.Derives rule word) :
    other.Derives (σ rule) word := by
  induction derived with
  | @of_alternative rule word alternative known _ declared matched ih =>
    obtain ⟨choice, listed, elements⟩ := renamed.mem_alternatives declared
    have whole := @Element.Renamed.sequence_eq σ _ _ known (fun target => known (σ.symm target)) elements
      fun rule => congrArg known (σ.symm_apply_apply rule)
    rw [← whole] at matched
    refine .of_alternative _ (fun target piece known => ?_) listed matched
    rw [← σ.apply_symm_apply target]
    exact ih _ _ known

theorem language_eq (renamed : grammar.Renamed σ other) (rule : Nat) :
    other.language (σ rule) = grammar.language rule := by
  ext word
  constructor
  · intro derived
    have back := renamed.symm.derives derived
    rwa [σ.symm_apply_apply] at back
  · exact renamed.derives

end Grammar.Renamed

end Typeahead
