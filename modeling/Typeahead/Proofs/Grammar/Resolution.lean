import Typeahead.Grammar.Compile

/-!
The ids in a compiled grammar are those of the vocabulary.
-/

namespace Typeahead

/-- A literal has the id of its text, if the vocabulary knows that, and a kind of token has the id of its
name. -/
def Symbol.Resolved (vocabulary : Vocabulary) : Symbol → Prop
  | .literal text id => ∀ known, vocabulary.literalId? text = some known → known = id
  | .token name id => vocabulary.nameId? name = some id
  | .rule _ _ | .noneOf _ | .any => True

def Element.Resolved (vocabulary : Vocabulary) (elements : List Element) : Prop :=
  ∀ element ∈ elements, element.symbol.Resolved vocabulary

def Alternative.Resolved (vocabulary : Vocabulary) (alternatives : List Alternative) : Prop :=
  ∀ alternative ∈ alternatives, Element.Resolved vocabulary alternative.elements

def Rule.Resolved (vocabulary : Vocabulary) (rules : List Rule) : Prop :=
  ∀ rule ∈ rules, Alternative.Resolved vocabulary rule.alternatives

theorem Rule.Resolved.append {vocabulary : Vocabulary} {first others : List Rule}
    (resolved : Rule.Resolved vocabulary first) (more : Rule.Resolved vocabulary others) :
    Rule.Resolved vocabulary (first ++ others) :=
  List.forall_mem_append.mpr ⟨resolved, more⟩

theorem Rule.Resolved.of_element? {vocabulary : Vocabulary} {grammar : Grammar}
    (resolved : Rule.Resolved vocabulary grammar.rules) {rule alternative index : Nat}
    {element : Element} (placed : grammar.element? rule alternative index = some element) :
    element.symbol.Resolved vocabulary := by
  have listed := List.mem_of_getElem? placed
  rw [Grammar.elements] at listed
  cases chosen : (grammar.alternatives rule)[alternative]? with
  | none =>
    rw [chosen] at listed
    cases listed
  | some choice =>
    rw [chosen] at listed
    have among := List.mem_of_getElem? chosen
    rw [Grammar.alternatives] at among
    cases declared : grammar.rules[rule]? with
    | none =>
      rw [declared] at among
      cases among
    | some declaration =>
      rw [declared] at among
      exact resolved declaration (List.mem_of_getElem? declared) choice among element listed

namespace Scope

theorem symbol?_resolved (scope : Scope) (form : Form) :
    ∀ symbol ∈ (scope.symbol? form).value, symbol.Resolved scope.vocabulary := by
  intro symbol given
  cases form with
  | literal text =>
    simp only [symbol?] at given
    cases found : scope.vocabulary.literalId? text with
    | some id =>
      simp only [found, Option.mem_some_iff] at given
      subst given
      exact fun known same => Option.some.inj (same.symm.trans found)
    | none =>
      simp only [found] at given
      split at given
      · rw [← Option.mem_some_iff.mp given]
        intro known same
        rw [found] at same
        cases same
      · cases given
  | token name =>
    simp only [symbol?] at given
    cases found : scope.vocabulary.nameId? name with
    | some id =>
      simp only [found] at given
      split at given
      · cases given
      · rw [← Option.mem_some_iff.mp given]
        exact found
    | none =>
      simp only [found] at given
      split at given
      · rw [← Option.mem_some_iff.mp given]
        trivial
      · cases given
  | rule name =>
    simp only [symbol?] at given
    split at given
    · rw [← Option.mem_some_iff.mp given]
      trivial
    · cases given
  | noneOf items =>
    simp only [symbol?] at given
    split at given <;> rw [← Option.mem_some_iff.mp given] <;> trivial
  | any =>
    rw [← Option.mem_some_iff.mp given]
    trivial
  | block alternatives => cases given

theorem symbol?_all (scope : Scope) (form : Form) :
    (∀ symbol ∈ (scope.symbol? form).value, symbol.Resolved scope.vocabulary) ∧
      Rule.Resolved scope.vocabulary (scope.symbol? form).blocks := by
  have blocks : (scope.symbol? form).blocks = [] := by
    fun_cases symbol? <;> rfl
  exact ⟨scope.symbol?_resolved form, by rw [blocks]; exact List.forall_mem_nil _⟩

mutual

theorem element_resolved (scope : Scope) (next : Nat) : (decl : ElementDecl) →
    (∀ element ∈ (scope.element next decl).value, element.symbol.Resolved scope.vocabulary) ∧
      Rule.Resolved scope.vocabulary (scope.element next decl).blocks
  | ⟨label, form, suffix⟩ => by
    unfold element
    split
    · exact ⟨fun _ none => (nomatch none), List.forall_mem_nil _⟩
    · obtain ⟨symbols, blocks⟩ := form_resolved scope next form
      refine ⟨fun element given => ?_, blocks⟩
      obtain ⟨symbol, found, rfl⟩ := Option.map_eq_some_iff.mp given
      exact symbols symbol found

theorem form_resolved (scope : Scope) (next : Nat) : (form : Form) →
    (∀ symbol ∈ (scope.form next form).value, symbol.Resolved scope.vocabulary) ∧
      Rule.Resolved scope.vocabulary (scope.form next form).blocks
  | .block alternatives => by
    obtain ⟨values, blocks⟩ := alternatives_resolved scope (next + 1) alternatives
    refine ⟨?_, List.forall_mem_cons.mpr ⟨values, blocks⟩⟩
    rintro _ ⟨⟩
    trivial
  | .literal text => symbol?_all scope (.literal text)
  | .token name => symbol?_all scope (.token name)
  | .rule name => symbol?_all scope (.rule name)
  | .noneOf items => symbol?_all scope (.noneOf items)
  | .any => symbol?_all scope .any

theorem elements_resolved (scope : Scope) (next : Nat) : (decls : List ElementDecl) →
    Element.Resolved scope.vocabulary (scope.elements next decls).value ∧
      Rule.Resolved scope.vocabulary (scope.elements next decls).blocks
  | [] => ⟨List.forall_mem_nil _, List.forall_mem_nil _⟩
  | decl :: decls => by
    obtain ⟨first, firstBlocks⟩ := element_resolved scope next decl
    obtain ⟨others, otherBlocks⟩ := elements_resolved scope _ decls
    exact ⟨List.forall_mem_append.mpr ⟨fun _ listed => first _ (Option.mem_toList.mp listed), others⟩,
      firstBlocks.append otherBlocks⟩

theorem alternative_resolved (scope : Scope) (next : Nat) : (decl : AlternativeDecl) →
    Element.Resolved scope.vocabulary (scope.alternative next decl).value.elements ∧
      Rule.Resolved scope.vocabulary (scope.alternative next decl).blocks
  | ⟨_, decls⟩ => elements_resolved scope next decls

theorem alternatives_resolved (scope : Scope) (next : Nat) : (decls : List AlternativeDecl) →
    Alternative.Resolved scope.vocabulary (scope.alternatives next decls).value ∧
      Rule.Resolved scope.vocabulary (scope.alternatives next decls).blocks
  | [] => ⟨List.forall_mem_nil _, List.forall_mem_nil _⟩
  | decl :: decls => by
    obtain ⟨first, firstBlocks⟩ := alternative_resolved scope next decl
    obtain ⟨others, otherBlocks⟩ := alternatives_resolved scope _ decls
    exact ⟨List.forall_mem_cons.mpr ⟨first, others⟩, firstBlocks.append otherBlocks⟩

end

end Scope

namespace RuleDecl

theorem compile_resolved (vocabulary : Vocabulary) (declared : List String) (next : Nat)
    (decl : RuleDecl) :
    Rule.Resolved vocabulary (decl.compile vocabulary declared next).value.toList ∧
      Rule.Resolved vocabulary (decl.compile vocabulary declared next).blocks := by
  unfold compile
  split
  · exact ⟨List.forall_mem_nil _, List.forall_mem_nil _⟩
  · obtain ⟨values, blocks⟩ := Scope.alternatives_resolved ⟨vocabulary, declared, decl.name, decl.lexical⟩
      next decl.alternatives
    exact ⟨List.forall_mem_singleton.mpr values, blocks⟩

theorem compileAll_resolved (vocabulary : Vocabulary) (declared earlier : List String) (next : Nat)
    (decls : List RuleDecl) :
    Rule.Resolved vocabulary (compileAll vocabulary declared earlier next decls).value ∧
      Rule.Resolved vocabulary (compileAll vocabulary declared earlier next decls).blocks := by
  induction decls generalizing earlier next with
  | nil => exact ⟨List.forall_mem_nil _, List.forall_mem_nil _⟩
  | cons decl decls ih =>
    rw [compileAll]
    obtain ⟨others, otherBlocks⟩ := ih (decl.name :: earlier) _
    refine ⟨Rule.Resolved.append ?_ others, Rule.Resolved.append ?_ otherBlocks⟩
    · split
      · exact List.forall_mem_nil _
      · exact (compile_resolved vocabulary declared next decl).1
    · split
      · exact List.forall_mem_nil _
      · exact (compile_resolved vocabulary declared next decl).2

end RuleDecl

/-- The elements of a compiled grammar hold the ids of its vocabulary. -/
theorem Grammar.compile_resolved {vocabulary : Vocabulary} {decls : List RuleDecl} {grammar : Grammar}
    (compiled : Grammar.compile vocabulary decls = .ok grammar) :
    grammar.vocabulary = vocabulary ∧ Rule.Resolved vocabulary grammar.rules := by
  simp only [compile] at compiled
  split at compiled
  · cases compiled
    obtain ⟨values, blocks⟩ := RuleDecl.compileAll_resolved vocabulary (decls.map RuleDecl.name) [] 0 decls
    exact ⟨rfl, values.append blocks⟩
  · cases compiled

end Typeahead
