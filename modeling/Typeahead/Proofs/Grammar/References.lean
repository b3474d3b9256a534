import Typeahead.Proofs.Grammar.Preorder

/-!
References from elements to rules. In a compiled grammar every block is referred to once.
-/

namespace Typeahead

section Once

variable {α β : Type} [DecidableEq β]

/-- What stands once in all the lists together comes from one element only, and once. -/
theorem place_of_count_flatMap {f : α → List β} {xs : List α} {b : β}
    (once : (xs.flatMap f).count b = 1) :
    ∃ (place : Nat) (x : α), xs[place]? = some x ∧ (f x).count b = 1 ∧
      ∀ (other : Nat) (y : α), xs[other]? = some y → b ∈ f y → other = place := by
  induction xs with
  | nil => cases once
  | cons x xs ih =>
    rw [List.flatMap_cons, List.count_append] at once
    by_cases here : b ∈ f x
    · have first : 0 < (f x).count b := List.count_pos_iff.mpr here
      have others : (xs.flatMap f).count b = 0 := by omega
      refine ⟨0, x, rfl, by omega, fun other y listed among => ?_⟩
      cases other with
      | zero => rfl
      | succ other =>
        have behind : b ∈ xs.flatMap f :=
          List.mem_flatMap.mpr ⟨y, List.mem_of_getElem? listed, among⟩
        exact (List.count_eq_zero.mp others behind).elim
    · rw [List.count_eq_zero.mpr here, Nat.zero_add] at once
      obtain ⟨place, found, listed, inside, only⟩ := ih once
      refine ⟨place + 1, found, listed, inside, fun other y placed among => ?_⟩
      cases other with
      | zero =>
        cases placed
        exact (here among).elim
      | succ other => rw [only other y placed among]

end Once

def Element.targets (elements : List Element) : List Nat :=
  elements.flatMap fun element => element.symbol.target?.toList

def Alternative.targets (alternatives : List Alternative) : List Nat :=
  alternatives.flatMap fun alternative => Element.targets alternative.elements

/-- The rules that the elements of some rules refer to, each as often as there is a reference. -/
def Rule.targets (rules : List Rule) : List Nat :=
  rules.flatMap fun rule => Alternative.targets rule.alternatives

namespace Grammar

variable {vocabulary : Vocabulary} {decls : List RuleDecl} {grammar : Grammar}

theorem element?_eq_some_iff {rule alternative index : Nat} {element : Element} :
    grammar.element? rule alternative index = some element ↔
      ∃ given choice, grammar.rules[rule]? = some given ∧
        given.alternatives[alternative]? = some choice ∧ choice.elements[index]? = some element := by
  rw [element?, elements, alternatives]
  constructor
  · intro placed
    cases isRule : grammar.rules[rule]? with
    | none => simp [isRule] at placed
    | some given =>
      cases isAlternative : given.alternatives[alternative]? with
      | none => simp [isRule, isAlternative] at placed
      | some choice =>
        refine ⟨given, choice, rfl, isAlternative, ?_⟩
        simpa [isRule, isAlternative] using placed
  · rintro ⟨given, choice, isRule, isAlternative, isElement⟩
    simpa [isRule, isAlternative] using isElement

/-- A rule that is referred to once in all is so at one place. -/
theorem existsUnique_reference {target : Nat} (once : (Rule.targets grammar.rules).count target = 1) :
    ∃! place : Nat × Nat × Nat, ∃ element,
      grammar.element? place.1 place.2.1 place.2.2 = some element ∧
        element.symbol.target? = some target := by
  obtain ⟨rule, given, isRule, once, onlyRule⟩ := place_of_count_flatMap once
  obtain ⟨alternative, choice, isAlternative, once, onlyAlternative⟩ := place_of_count_flatMap once
  obtain ⟨index, element, isElement, once, onlyElement⟩ := place_of_count_flatMap once
  have refers : target ∈ element.symbol.target?.toList :=
    List.count_pos_iff.mp (by rw [once]; exact Nat.one_pos)
  refine ⟨(rule, alternative, index), ⟨element,
    element?_eq_some_iff.mpr ⟨given, choice, isRule, isAlternative, isElement⟩,
    Option.mem_toList.mp refers⟩, ?_⟩
  rintro ⟨otherRule, otherAlternative, otherIndex⟩ ⟨other, placed, refersToo⟩
  obtain ⟨rule', choice', isRule', isAlternative', isElement'⟩ := element?_eq_some_iff.mp placed
  have inElement : target ∈ other.symbol.target?.toList := Option.mem_toList.mpr refersToo
  have inChoice : target ∈ Element.targets choice'.elements :=
    List.mem_flatMap.mpr ⟨other, List.mem_of_getElem? isElement', inElement⟩
  have inRule : target ∈ Alternative.targets rule'.alternatives :=
    List.mem_flatMap.mpr ⟨choice', List.mem_of_getElem? isAlternative', inChoice⟩
  obtain rfl := onlyRule _ _ isRule' inRule
  obtain rfl := Option.some.inj (isRule.symm.trans isRule')
  obtain rfl := onlyAlternative _ _ isAlternative' inChoice
  obtain rfl := Option.some.inj (isAlternative.symm.trans isAlternative')
  obtain rfl := onlyElement _ _ isElement' inElement
  rfl

end Grammar

namespace Scope

/-- Those of some targets that are blocks. -/
def blocksAmong (scope : Scope) (targets : List Nat) : List Nat :=
  targets.filter (scope.declared.length ≤ ·)

variable {scope : Scope}

theorem blocksAmong_cons (number : Nat) (targets : List Nat) :
    scope.blocksAmong ((scope.declared.length + number) :: targets) =
      (scope.declared.length + number) :: scope.blocksAmong targets :=
  List.filter_cons_of_pos (by simp)

theorem blocksAmong_append {first others firstBlocks otherBlocks : List Nat} {next count more : Nat}
    (inFirst : (scope.blocksAmong (first ++ firstBlocks)).Perm (List.range' next count))
    (inOthers : (scope.blocksAmong (others ++ otherBlocks)).Perm (List.range' (next + count) more)) :
    (scope.blocksAmong ((first ++ others) ++ (firstBlocks ++ otherBlocks))).Perm
      (List.range' next (count + more)) := by
  have regrouped : ((first ++ others) ++ (firstBlocks ++ otherBlocks)).Perm
      ((first ++ firstBlocks) ++ (others ++ otherBlocks)) := by
    rw [List.perm_iff_count]
    intro target
    simp only [List.count_append]
    omega
  have together := (regrouped.filter (scope.declared.length ≤ ·)).trans
    (List.filter_append .. ▸ inFirst.append inOthers)
  rwa [List.range'_append_1] at together

/-- A name refers to a declared rule, and a terminal to none. -/
theorem symbol?_targets (scope : Scope) (form : Form) :
    scope.blocksAmong ((scope.symbol? form).value.bind Symbol.target?).toList = [] := by
  unfold symbol?
  split
  case h_1 => split <;> [rfl; split <;> rfl]
  case h_2 => split <;> [skip; split <;> rfl]; split <;> rfl
  case h_3 =>
    split
    · rename_i name target found
      have inside : target < scope.declared.length :=
        (List.findIdx?_eq_some_iff_getElem.mp found).1
      exact List.filter_eq_nil_iff.mpr fun other same => by
        rw [List.mem_singleton.mp same, decide_eq_true_eq]
        omega
    · rfl
  case h_4 => split <;> rfl
  case h_5 => rfl
  case h_6 => rfl

theorem symbol?_once (next : Nat) (form : Form) :
    (scope.blocksAmong (((scope.symbol? form).value.bind Symbol.target?).toList ++
      Rule.targets (scope.symbol? form).blocks)).Perm
      (List.range' (scope.declared.length + next) (scope.symbol? form).blocks.length) := by
  rw [blocks_symbol?, Rule.targets, List.flatMap_nil, List.append_nil, symbol?_targets]
  rfl

mutual

/-- The blocks inside an element are referred to once, there or in each other. -/
theorem element_once (next : Nat) : (decl : ElementDecl) →
    (scope.blocksAmong (Element.targets (scope.element next decl).value.toList ++
      Rule.targets (scope.element next decl).blocks)).Perm
      (List.range' (scope.declared.length + next) (scope.element next decl).blocks.length)
  | ⟨label, form, suffix⟩ => by
    unfold element
    cases Multiplicity.ofSuffix? suffix with
    | none => rfl
    | some multiplicity =>
      have inside := form_once next form
      dsimp only
      cases value : (scope.form next form).value with
      | none =>
        rw [value] at inside
        exact inside
      | some symbol =>
        rw [value] at inside
        simpa [Element.targets] using inside

theorem form_once (next : Nat) : (form : Form) →
    (scope.blocksAmong (((scope.form next form).value.bind Symbol.target?).toList ++
      Rule.targets (scope.form next form).blocks)).Perm
      (List.range' (scope.declared.length + next) (scope.form next form).blocks.length)
  | .block alternatives => by
    have inside := alternatives_once (next + 1) alternatives
    rw [form, List.length_cons, List.range'_succ]
    exact (List.Perm.of_eq (blocksAmong_cons next _)).trans (inside.cons _)
  | .literal text => symbol?_once next (.literal text)
  | .token name => symbol?_once next (.token name)
  | .rule name => symbol?_once next (.rule name)
  | .noneOf items => symbol?_once next (.noneOf items)
  | .any => symbol?_once next .any

theorem elements_once (next : Nat) : (decls : List ElementDecl) →
    (scope.blocksAmong (Element.targets (scope.elements next decls).value ++
      Rule.targets (scope.elements next decls).blocks)).Perm
      (List.range' (scope.declared.length + next) (scope.elements next decls).blocks.length)
  | [] => .refl _
  | decl :: decls => by
    have first := element_once next decl
    have others := elements_once (next + (scope.element next decl).blocks.length) decls
    rw [← Nat.add_assoc] at others
    rw [elements, Element.targets, Rule.targets, List.flatMap_append, List.flatMap_append,
      List.length_append]
    exact blocksAmong_append first others

theorem alternative_once (next : Nat) : (decl : AlternativeDecl) →
    (scope.blocksAmong (Element.targets (scope.alternative next decl).value.elements ++
      Rule.targets (scope.alternative next decl).blocks)).Perm
      (List.range' (scope.declared.length + next) (scope.alternative next decl).blocks.length)
  | ⟨_, decls⟩ => elements_once next decls

theorem alternatives_once (next : Nat) : (decls : List AlternativeDecl) →
    (scope.blocksAmong (Alternative.targets (scope.alternatives next decls).value ++
      Rule.targets (scope.alternatives next decls).blocks)).Perm
      (List.range' (scope.declared.length + next) (scope.alternatives next decls).blocks.length)
  | [] => .refl _
  | decl :: decls => by
    have first := alternative_once next decl
    have others := alternatives_once (next + (scope.alternative next decl).blocks.length) decls
    rw [← Nat.add_assoc] at others
    rw [alternatives, Alternative.targets, Rule.targets, List.flatMap_cons, List.flatMap_append,
      List.length_append]
    exact blocksAmong_append first others

end

end Scope

namespace RuleDecl

variable {vocabulary : Vocabulary} {declared : List String}

theorem compiledRules_once (next : Nat) (decls : List RuleDecl)
    (sound : ∀ decl ∈ decls, decl.Sound vocabulary declared) :
    ((Rule.targets (compiledRules vocabulary declared next decls) ++
      Rule.targets (opened vocabulary declared next (allBlocks decls))).filter
        (declared.length ≤ ·)).Perm
      (List.range' (declared.length + next) (allBlocks decls).length) := by
  induction decls generalizing next with
  | nil => exact .refl _
  | cons decl decls ih =>
    have faultless := (sound decl (List.mem_cons_self ..)).faultless next
    have first := @Scope.alternatives_once (decl.scope vocabulary declared) next decl.alternatives
    rw [Scope.alternatives_opened next _ faultless, Scope.length_opened, ← length_blocks,
      ← opened_blocks] at first
    have others := ih (next + decl.blocks.length) fun other listed =>
      sound other (List.mem_cons_of_mem _ listed)
    rw [← Nat.add_assoc] at others
    rw [compiledRules, allBlocks, List.flatMap_cons, opened_append, List.length_append, Rule.targets,
      Rule.targets, List.flatMap_cons, List.flatMap_append]
    exact Scope.blocksAmong_append first others

end RuleDecl

/-- Each block of a compiled grammar is referred to by one element. -/
theorem Grammar.ofDecls_once {vocabulary : Vocabulary} {decls : List RuleDecl}
    (sound : ∀ decl ∈ decls, decl.Sound vocabulary (decls.map RuleDecl.name)) {number : Nat}
    (isBlock : number < (RuleDecl.allBlocks decls).length) :
    (Rule.targets (ofDecls vocabulary decls).rules).count (decls.length + number) = 1 := by
  have once := RuleDecl.compiledRules_once 0 decls sound
  rw [List.length_map, Nat.add_zero] at once
  have counted := once.count_eq (decls.length + number)
  rw [List.count_filter (by simp)] at counted
  rw [ofDecls, Rule.targets, List.flatMap_append]
  rw [Rule.targets, Rule.targets] at counted
  rw [counted]
  exact List.count_eq_one_of_mem List.nodup_range' (List.mem_range'_1.mpr (by omega))

end Typeahead
