import Typeahead.Grammar.Compile
import Typeahead.Proofs.Grammar.Reading

/-!
Compilation keeps what declarations mean. Blocks become rules behind the declared ones, and whatever is
said of the rules that symbols refer to can be said of the forms that these come from.
-/

open Computability

namespace Typeahead

namespace Multiplicity

theorem repeated_one {α : Type} (multiplicity : Multiplicity) :
    multiplicity.repeated (1 : Language α) = 1 := by
  cases multiplicity with
  | once => rfl
  | optional => exact add_idem 1
  | star => exact kstar_one
  | plus => rw [repeated, kstar_one, one_mul]

end Multiplicity

def Alternative.choice (known : Nat → Language TokenId) : List Alternative → Language TokenId
  | [] => 0
  | alternative :: alternatives =>
    Element.sequence known alternative.elements + Alternative.choice known alternatives

theorem Alternative.mem_choice {known : Nat → Language TokenId} {alternatives : List Alternative}
    {word : List TokenId} : word ∈ Alternative.choice known alternatives ↔
      ∃ alternative ∈ alternatives, word ∈ Element.sequence known alternative.elements := by
  induction alternatives with
  | nil => simp [choice]
  | cons alternative alternatives ih =>
    rw [choice, Language.mem_add, ih]
    simp

namespace Symbol

variable (known : Nat → Language TokenId)

theorem language_literal (text : String) (id : TokenId) :
    (literal text id).language known = TokenId.single (· = id) :=
  TokenId.single_congr fun other => by rw [accepts, beq_iff_eq, eq_comm]

theorem language_token (name : String) (id : TokenId) :
    (token name id).language known = TokenId.single (· = id) :=
  TokenId.single_congr fun other => by rw [accepts, beq_iff_eq, eq_comm]

theorem language_any : any.language known = TokenId.single (· ≠ .eof) :=
  TokenId.single_congr fun other => by rw [accepts, bne_iff_ne]

theorem language_noneOf (excluded : List TokenId) :
    (noneOf excluded).language known = TokenId.single fun id => id ≠ .eof ∧ id ∉ excluded :=
  TokenId.single_congr fun other => by simp [accepts]

end Symbol

/-- A comparison of languages that concatenation, choice and repetition keep. -/
structure Congruence (rel : Language TokenId → Language TokenId → Prop) : Prop where
  refl : ∀ language, rel language language
  add : ∀ {left left' right right' : Language TokenId},
    rel left left' → rel right right' → rel (left + right) (left' + right')
  mul : ∀ {left left' right right' : Language TokenId},
    rel left left' → rel right right' → rel (left * right) (left' * right')
  repeated : ∀ {language language' : Language TokenId} (multiplicity : Multiplicity),
    rel language language' → rel (multiplicity.repeated language) (multiplicity.repeated language')

theorem Congruence.le : Congruence (· ≤ ·) where
  refl _ := le_rfl
  add := add_le_add
  mul := mul_le_mul'
  repeated multiplicity included := Multiplicity.repeated_mono included multiplicity

theorem Congruence.ge : Congruence (· ≥ ·) where
  refl _ := le_rfl
  add := add_le_add
  mul := mul_le_mul'
  repeated multiplicity included := Multiplicity.repeated_mono included multiplicity

namespace Rule

variable {all : List Rule} {next : Nat}

/-- The rules of some blocks stand among those of all blocks from a number on. -/
def Placed (all : List Rule) (next : Nat) (blocks : List Rule) : Prop := blocks <+: all.drop next

theorem Placed.append_left {first others : List Rule} (placed : Placed all next (first ++ others)) :
    Placed all next first :=
  (List.prefix_append first others).trans placed

theorem Placed.append_right {first others : List Rule} (placed : Placed all next (first ++ others)) :
    Placed all (next + first.length) others := by
  have behind := List.IsPrefix.drop placed first.length
  rwa [List.drop_left, List.drop_drop] at behind

theorem Placed.tail {rule : Rule} {blocks : List Rule} (placed : Placed all next (rule :: blocks)) :
    Placed all (next + 1) blocks := by
  have joined : Placed all next ([rule] ++ blocks) := placed
  exact joined.append_right

theorem Placed.getElem? {rule : Rule} {blocks : List Rule}
    (placed : Placed all next (rule :: blocks)) : all[next]? = some rule := by
  obtain ⟨others, split⟩ := placed
  have first : (all.drop next)[0]? = some rule := by rw [← split]; rfl
  rwa [List.getElem?_drop] at first

end Rule

namespace Scope

variable {scope : Scope} {all : List Rule}

theorem mem_idSet (ids : List TokenId) (id : TokenId) : id ∈ idSet ids ↔ id ∈ ids := by
  rw [idSet, (sortByKey_perm TokenId.toInt ids.eraseDups).mem_iff, List.mem_eraseDups]

theorem itemId?_eq (item : SetItem) : scope.itemId? item = item.idIn scope.vocabulary := by
  cases item with
  | literal text => rfl
  | token name => rfl

theorem noneOf_reading (known : Nat → Language TokenId) (items : List SetItem) :
    (Symbol.noneOf (idSet (items.filterMap scope.itemId?))).language known =
      TokenId.single fun id => id ≠ .eof ∧ ∀ item ∈ items, item.idIn scope.vocabulary ≠ some id := by
  rw [Symbol.language_noneOf]
  refine TokenId.single_congr fun id => and_congr_right fun _ => ?_
  simp only [mem_idSet, List.mem_filterMap, itemId?_eq, not_exists, not_and, ne_eq]

theorem symbol?_reading (known : Nat → Language TokenId) (named : String → Language TokenId)
    {form : Form} (noName : ∀ name, form ≠ .rule name)
    (noBlock : ∀ alternatives, form ≠ .block alternatives)
    (sound : (scope.symbol? form).defects = []) :
    (scope.symbol? form).value.elim 1 (·.language known) =
      form.reading scope.vocabulary scope.lexical named := by
  cases form with
  | literal text =>
    simp only [symbol?, Form.reading] at sound ⊢
    cases found : scope.vocabulary.literalId? text with
    | some id => exact Symbol.language_literal known text id
    | none =>
      cases lexical : scope.lexical with
      | true => exact Symbol.language_literal known text .invalid
      | false => simp [found, lexical] at sound
  | token name =>
    simp only [symbol?, Form.reading] at sound ⊢
    cases found : scope.vocabulary.nameId? name with
    | some id =>
      by_cases ended : id = .eof
      · simp only [ended, if_true, Option.elim_none]
      · simp only [ended, if_false, Option.elim_some]
        exact Symbol.language_token known name id
    | none =>
      cases lexical : scope.lexical with
      | true => exact Symbol.language_any known
      | false => simp [found, lexical] at sound
  | noneOf items =>
    simp only [symbol?, Form.reading] at sound ⊢
    cases lexical : scope.lexical with
    | true => exact Symbol.language_any known
    | false => exact noneOf_reading known items
  | any => exact Symbol.language_any known
  | rule name => exact (noName name rfl).elim
  | block alternatives => exact (noBlock alternatives rfl).elim

section Related

variable (scope all) (rel : Language TokenId → Language TokenId → Prop)
  (known : Nat → Language TokenId) (named : String → Language TokenId)

/-- What is known of rules compares with what is known of names, and for the rule of a block with what
the block is read as, where that compares inside. -/
structure Agrees : Prop where
  congruence : Congruence rel
  names : ∀ name target, scope.declared.findIdx? (· == name) = some target →
    rel (known target) (named name)
  blocks : ∀ next alternatives, (scope.form next (.block alternatives)).defects = [] →
    Rule.Placed all next (scope.form next (.block alternatives)).blocks →
    rel (Alternative.choice known (scope.alternatives (next + 1) alternatives).value)
      (AlternativeDecl.choice scope.vocabulary scope.lexical named alternatives) →
    rel (known (scope.declared.length + next))
      (AlternativeDecl.choice scope.vocabulary scope.lexical named alternatives)

end Related

variable {rel : Language TokenId → Language TokenId → Prop} {known : Nat → Language TokenId}
  {named : String → Language TokenId}

theorem symbol_related (agrees : Agrees scope all rel known named) {form : Form}
    (noBlock : ∀ alternatives, form ≠ .block alternatives)
    (sound : (scope.symbol? form).defects = []) :
    rel ((scope.symbol? form).value.elim 1 (·.language known))
      (form.reading scope.vocabulary scope.lexical named) := by
  by_cases reference : ∃ name, form = .rule name
  · obtain ⟨name, rfl⟩ := reference
    cases found : scope.declared.findIdx? (· == name) with
    | none => simp [symbol?, found] at sound
    | some target =>
      simp only [symbol?, found, Option.elim_some, Form.reading]
      exact agrees.names name target found
  · rw [symbol?_reading known named (fun name same => reference ⟨name, same⟩) noBlock sound]
    exact agrees.congruence.refl _

mutual

theorem element_related (agrees : Agrees scope all rel known named) (next : Nat) :
    (decl : ElementDecl) → (scope.element next decl).defects = [] →
      Rule.Placed all next (scope.element next decl).blocks →
      rel ((scope.element next decl).value.elim 1 (·.language known))
        (decl.reading scope.vocabulary scope.lexical named)
  | ⟨label, form, suffix⟩, sound, placed => by
    unfold element at sound placed ⊢
    unfold ElementDecl.reading
    cases found : Multiplicity.ofSuffix? suffix with
    | none => simp [found] at sound
    | some multiplicity =>
      simp only [found] at sound placed ⊢
      have inner := agrees.congruence.repeated multiplicity (form_related agrees next form sound placed)
      cases value : (scope.form next form).value with
      | none =>
        rw [value, Option.elim_none, Multiplicity.repeated_one] at inner
        exact inner
      | some symbol =>
        rw [value, Option.elim_some] at inner
        exact inner

theorem form_related (agrees : Agrees scope all rel known named) (next : Nat) :
    (form : Form) → (scope.form next form).defects = [] →
      Rule.Placed all next (scope.form next form).blocks →
      rel ((scope.form next form).value.elim 1 (·.language known))
        (form.reading scope.vocabulary scope.lexical named)
  | .block alternatives, sound, placed => by
    have soundInside := (List.append_eq_nil_iff.mp sound).2
    exact agrees.blocks next alternatives sound placed
      (alternatives_related agrees (next + 1) alternatives soundInside placed.tail)
  | .literal text, sound, _ => symbol_related agrees (by simp) sound
  | .token name, sound, _ => symbol_related agrees (by simp) sound
  | .rule name, sound, _ => symbol_related agrees (by simp) sound
  | .noneOf items, sound, _ => symbol_related agrees (by simp) sound
  | .any, sound, _ => symbol_related agrees (by simp) sound

theorem elements_related (agrees : Agrees scope all rel known named) (next : Nat) :
    (decls : List ElementDecl) → (scope.elements next decls).defects = [] →
      Rule.Placed all next (scope.elements next decls).blocks →
      rel (Element.sequence known (scope.elements next decls).value)
        (ElementDecl.row scope.vocabulary scope.lexical named decls)
  | [], _, _ => agrees.congruence.refl 1
  | decl :: decls, sound, placed => by
    obtain ⟨soundFirst, soundOthers⟩ := List.append_eq_nil_iff.mp sound
    have first := element_related agrees next decl soundFirst placed.append_left
    have others := elements_related agrees _ decls soundOthers placed.append_right
    have split : Element.sequence known (scope.elements next (decl :: decls)).value =
        (scope.element next decl).value.elim 1 (·.language known) * Element.sequence known
          (scope.elements (next + (scope.element next decl).blocks.length) decls).value := by
      rw [elements, Element.sequence_append]
      cases (scope.element next decl).value with
      | none => rfl
      | some element => simp
    rw [split, ElementDecl.row]
    exact agrees.congruence.mul first others

theorem alternative_related (agrees : Agrees scope all rel known named) (next : Nat) :
    (decl : AlternativeDecl) → (scope.alternative next decl).defects = [] →
      Rule.Placed all next (scope.alternative next decl).blocks →
      rel (Element.sequence known (scope.alternative next decl).value.elements)
        (decl.reading scope.vocabulary scope.lexical named)
  | ⟨_, decls⟩, sound, placed => elements_related agrees next decls sound placed

theorem alternatives_related (agrees : Agrees scope all rel known named) (next : Nat) :
    (decls : List AlternativeDecl) → (scope.alternatives next decls).defects = [] →
      Rule.Placed all next (scope.alternatives next decls).blocks →
      rel (Alternative.choice known (scope.alternatives next decls).value)
        (AlternativeDecl.choice scope.vocabulary scope.lexical named decls)
  | [], _, _ => agrees.congruence.refl 0
  | decl :: decls, sound, placed => by
    obtain ⟨soundFirst, soundOthers⟩ := List.append_eq_nil_iff.mp sound
    have first := alternative_related agrees next decl soundFirst placed.append_left
    have others := alternatives_related agrees _ decls soundOthers placed.append_right
    exact agrees.congruence.add first others

end

end Scope

end Typeahead
