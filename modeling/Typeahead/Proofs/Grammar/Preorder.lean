import Typeahead.Proofs.Grammar.Refinement

/-!
The blocks of declarations in the order in which they open, an outer block before those inside it. In
this order the rules of the blocks stand behind the declared ones.
-/

namespace Typeahead

attribute [ext] Compiled

mutual

/-- The blocks of an element, each by its alternatives. -/
def ElementDecl.blocks : ElementDecl → List (List AlternativeDecl)
  | ⟨_, form, _⟩ => form.blocks

def Form.blocks : Form → List (List AlternativeDecl)
  | .block alternatives => alternatives :: AlternativeDecl.allBlocks alternatives
  | _ => []

def ElementDecl.allBlocks : List ElementDecl → List (List AlternativeDecl)
  | [] => []
  | decl :: decls => decl.blocks ++ ElementDecl.allBlocks decls

def AlternativeDecl.blocks : AlternativeDecl → List (List AlternativeDecl)
  | ⟨_, decls⟩ => ElementDecl.allBlocks decls

def AlternativeDecl.allBlocks : List AlternativeDecl → List (List AlternativeDecl)
  | [] => []
  | decl :: decls => decl.blocks ++ AlternativeDecl.allBlocks decls

end

namespace RuleDecl

/-- The blocks of a rule, each with the rule that it belongs to. -/
def blocks (decl : RuleDecl) : List (RuleDecl × List AlternativeDecl) :=
  (AlternativeDecl.allBlocks decl.alternatives).map (decl, ·)

def allBlocks (decls : List RuleDecl) : List (RuleDecl × List AlternativeDecl) :=
  decls.flatMap blocks

def origin (decl : RuleDecl) : Origin := if decl.lexical then .lexer else .parser

end RuleDecl

namespace Scope

variable {scope : Scope}

/-- The rule of a block with a number. -/
def blockRule (scope : Scope) (number : Nat) (alternatives : List AlternativeDecl) : Rule :=
  ⟨scope.blockName number, .block, (scope.alternatives (number + 1) alternatives).value⟩

/-- The rules of blocks that open one after the other, from the number `next` on. -/
def opened (scope : Scope) (next : Nat) (blocks : List (List AlternativeDecl)) : List Rule :=
  (blocks.zipIdx next).map fun block => scope.blockRule block.2 block.1

theorem opened_cons (next : Nat) (block : List AlternativeDecl) (blocks : List (List AlternativeDecl)) :
    scope.opened next (block :: blocks) = scope.blockRule next block :: scope.opened (next + 1) blocks :=
  rfl

theorem opened_append (next : Nat) (first others : List (List AlternativeDecl)) :
    scope.opened next (first ++ others) =
      scope.opened next first ++ scope.opened (next + first.length) others := by
  rw [opened, List.zipIdx_append, List.map_append]
  rfl

theorem length_opened (next : Nat) (blocks : List (List AlternativeDecl)) :
    (scope.opened next blocks).length = blocks.length := by
  rw [opened, List.length_map, List.length_zipIdx]

theorem blocks_symbol? (scope : Scope) (form : Form) : (scope.symbol? form).blocks = [] := by
  unfold symbol?
  split
  case h_1 => split <;> [rfl; split <;> rfl]
  case h_2 => split <;> [rfl; split <;> rfl]
  case h_3 => split <;> rfl
  case h_4 => split <;> rfl
  case h_5 => rfl
  case h_6 => rfl

mutual

/-- Nothing that is wrong depends on the numbers of blocks. -/
theorem element_defects (next other : Nat) : (decl : ElementDecl) →
    (scope.element next decl).defects = (scope.element other decl).defects
  | ⟨label, form, suffix⟩ => by
    unfold element
    cases Multiplicity.ofSuffix? suffix with
    | none => rfl
    | some multiplicity => exact form_defects next other form

theorem form_defects (next other : Nat) : (form : Form) →
    (scope.form next form).defects = (scope.form other form).defects
  | .block alternatives =>
    congrArg (_ ++ ·) (alternatives_defects (next + 1) (other + 1) alternatives)
  | .literal _ => rfl
  | .token _ => rfl
  | .rule _ => rfl
  | .noneOf _ => rfl
  | .any => rfl

theorem elements_defects (next other : Nat) : (decls : List ElementDecl) →
    (scope.elements next decls).defects = (scope.elements other decls).defects
  | [] => rfl
  | decl :: decls =>
    congrArg₂ (· ++ ·) (element_defects next other decl) (elements_defects _ _ decls)

theorem alternative_defects (next other : Nat) : (decl : AlternativeDecl) →
    (scope.alternative next decl).defects = (scope.alternative other decl).defects
  | ⟨_, decls⟩ => elements_defects next other decls

theorem alternatives_defects (next other : Nat) : (decls : List AlternativeDecl) →
    (scope.alternatives next decls).defects = (scope.alternatives other decls).defects
  | [] => rfl
  | decl :: decls =>
    congrArg₂ (· ++ ·) (alternative_defects next other decl) (alternatives_defects _ _ decls)

end

mutual

theorem element_opened (next : Nat) : (decl : ElementDecl) →
    (scope.element next decl).defects = [] →
      (scope.element next decl).blocks = scope.opened next decl.blocks
  | ⟨label, form, suffix⟩, sound => by
    unfold element at sound ⊢
    cases found : Multiplicity.ofSuffix? suffix with
    | none => simp [found] at sound
    | some multiplicity =>
      simp only [found] at sound ⊢
      exact form_opened next form sound

theorem form_opened (next : Nat) : (form : Form) → (scope.form next form).defects = [] →
    (scope.form next form).blocks = scope.opened next form.blocks
  | .block alternatives, sound => by
    have soundInside := (List.append_eq_nil_iff.mp sound).2
    rw [form, Form.blocks, opened_cons, alternatives_opened (next + 1) alternatives soundInside]
    rfl
  | .literal text, _ => blocks_symbol? scope (.literal text)
  | .token name, _ => blocks_symbol? scope (.token name)
  | .rule name, _ => blocks_symbol? scope (.rule name)
  | .noneOf items, _ => blocks_symbol? scope (.noneOf items)
  | .any, _ => blocks_symbol? scope .any

theorem elements_opened (next : Nat) : (decls : List ElementDecl) →
    (scope.elements next decls).defects = [] →
      (scope.elements next decls).blocks = scope.opened next (ElementDecl.allBlocks decls)
  | [], _ => rfl
  | decl :: decls, sound => by
    obtain ⟨soundFirst, soundOthers⟩ := List.append_eq_nil_iff.mp sound
    have first := element_opened next decl soundFirst
    have others := elements_opened _ decls soundOthers
    rw [elements, ElementDecl.allBlocks, opened_append, others, first, length_opened]

theorem alternative_opened (next : Nat) : (decl : AlternativeDecl) →
    (scope.alternative next decl).defects = [] →
      (scope.alternative next decl).blocks = scope.opened next decl.blocks
  | ⟨_, decls⟩, sound => elements_opened next decls sound

theorem alternatives_opened (next : Nat) : (decls : List AlternativeDecl) →
    (scope.alternatives next decls).defects = [] →
      (scope.alternatives next decls).blocks = scope.opened next (AlternativeDecl.allBlocks decls)
  | [], _ => rfl
  | decl :: decls, sound => by
    obtain ⟨soundFirst, soundOthers⟩ := List.append_eq_nil_iff.mp sound
    have first := alternative_opened next decl soundFirst
    have others := alternatives_opened _ decls soundOthers
    rw [alternatives, AlternativeDecl.allBlocks, opened_append, others, first, length_opened]

end

end Scope

namespace RuleDecl

variable {vocabulary : Vocabulary} {declared : List String}

/-- The rules of blocks that open one after the other, each in the scope of its rule. -/
def opened (vocabulary : Vocabulary) (declared : List String) (next : Nat)
    (blocks : List (RuleDecl × List AlternativeDecl)) : List Rule :=
  (blocks.zipIdx next).map fun block =>
    (block.1.1.scope vocabulary declared).blockRule block.2 block.1.2

theorem opened_append (next : Nat) (first others : List (RuleDecl × List AlternativeDecl)) :
    opened vocabulary declared next (first ++ others) =
      opened vocabulary declared next first ++
        opened vocabulary declared (next + first.length) others := by
  rw [opened, List.zipIdx_append, List.map_append]
  rfl

theorem length_opened (next : Nat) (blocks : List (RuleDecl × List AlternativeDecl)) :
    (opened vocabulary declared next blocks).length = blocks.length := by
  rw [opened, List.length_map, List.length_zipIdx]

theorem getElem?_opened (next : Nat) {blocks : List (RuleDecl × List AlternativeDecl)} {number : Nat}
    {decl : RuleDecl} {alternatives : List AlternativeDecl}
    (listed : blocks[number]? = some (decl, alternatives)) :
    (opened vocabulary declared next blocks)[number]? =
      some ((decl.scope vocabulary declared).blockRule (next + number) alternatives) := by
  rw [opened, List.getElem?_map, List.getElem?_zipIdx, listed]
  rfl

theorem opened_blocks (next : Nat) (decl : RuleDecl) :
    opened vocabulary declared next decl.blocks =
      (decl.scope vocabulary declared).opened next (AlternativeDecl.allBlocks decl.alternatives) := by
  rw [opened, blocks, List.zipIdx_map, List.map_map]
  rfl

theorem length_blocks (decl : RuleDecl) :
    decl.blocks.length = (AlternativeDecl.allBlocks decl.alternatives).length := List.length_map _

/-- A rule with its blocks from the number `next` on. -/
def compiledRule (vocabulary : Vocabulary) (declared : List String) (next : Nat) (decl : RuleDecl) :
    Rule :=
  ⟨decl.name, decl.origin,
    ((decl.scope vocabulary declared).alternatives next decl.alternatives).value⟩

/-- Rules one after the other, the blocks of each numbered on from those before. -/
def compiledRules (vocabulary : Vocabulary) (declared : List String) (next : Nat) :
    List RuleDecl → List Rule
  | [] => []
  | decl :: decls =>
    decl.compiledRule vocabulary declared next ::
      compiledRules vocabulary declared (next + decl.blocks.length) decls

theorem length_compiledRules (next : Nat) (decls : List RuleDecl) :
    (compiledRules vocabulary declared next decls).length = decls.length := by
  induction decls generalizing next with
  | nil => rfl
  | cons decl decls ih => rw [compiledRules, List.length_cons, List.length_cons, ih]

theorem getElem?_compiledRules {decls : List RuleDecl} {place : Nat} {decl : RuleDecl} (next : Nat)
    (listed : decls[place]? = some decl) :
    (compiledRules vocabulary declared next decls)[place]? =
      some (decl.compiledRule vocabulary declared (next + (allBlocks (decls.take place)).length)) := by
  induction decls generalizing next place with
  | nil => cases listed
  | cons first decls ih =>
    cases place with
    | zero =>
      cases listed
      rfl
    | succ place =>
      rw [compiledRules, List.getElem?_cons_succ, ih _ listed, List.take_succ_cons, allBlocks,
        allBlocks, List.flatMap_cons, List.length_append, Nat.add_assoc]

/-- A declaration has alternatives, and nothing in them is wrong, whatever the numbers of its blocks. -/
structure Sound (vocabulary : Vocabulary) (declared : List String) (decl : RuleDecl) : Prop where
  given : decl.alternatives ≠ []
  faultless : ∀ next,
    ((decl.scope vocabulary declared).alternatives next decl.alternatives).defects = []

theorem compile_sound_iff (next : Nat) (decl : RuleDecl) :
    (decl.compile vocabulary declared next).defects = [] ↔ decl.Sound vocabulary declared := by
  unfold compile
  split
  · rename_i missing
    exact ⟨nofun, fun sound => (sound.given (List.isEmpty_iff.mp missing)).elim⟩
  · rename_i given
    constructor
    · intro faultless
      refine ⟨fun missing => given (List.isEmpty_iff.mpr missing), fun other => ?_⟩
      rw [Scope.alternatives_defects other next]
      exact faultless
    · exact fun sound => sound.faultless next

theorem Sound.compile_eq {decl : RuleDecl} (sound : decl.Sound vocabulary declared) (next : Nat) :
    decl.compile vocabulary declared next =
      { value := some (decl.compiledRule vocabulary declared next)
        blocks := opened vocabulary declared next decl.blocks } := by
  have given : ¬ decl.alternatives.isEmpty := fun missing => sound.given (List.isEmpty_iff.mp missing)
  have blocks := Scope.alternatives_opened next decl.alternatives (sound.faultless next)
  rw [← opened_blocks] at blocks
  rw [compile, if_neg given, ← blocks]
  exact Compiled.ext rfl rfl (sound.faultless next)

theorem nameDefects_cons_iff {earlier : List String} {decl : RuleDecl} {decls : List RuleDecl} :
    nameDefects earlier (decl :: decls) = [] ↔
      '#' ∉ decl.name.toList ∧ decl.name ∉ earlier ∧
        nameDefects (decl.name :: earlier) decls = [] := by
  simp [nameDefects]

theorem nameDefects_iff {earlier : List String} {decls : List RuleDecl} :
    nameDefects earlier decls = [] ↔ (decls.map name).Nodup ∧
      ∀ decl ∈ decls, decl.name ∉ earlier ∧ '#' ∉ decl.name.toList := by
  induction decls generalizing earlier with
  | nil => simp [nameDefects]
  | cons decl decls ih =>
    rw [nameDefects_cons_iff, ih]
    simp only [List.map_cons, List.nodup_cons, List.mem_map, List.mem_cons]
    grind

theorem compileAll_sound_iff (decls : List RuleDecl) {earlier : List String} (next : Nat)
    (named : nameDefects earlier decls = []) :
    (compileAll vocabulary declared earlier next decls).defects = [] ↔
      ∀ decl ∈ decls, decl.Sound vocabulary declared := by
  induction decls generalizing earlier next with
  | nil => simp [compileAll]
  | cons decl decls ih =>
    obtain ⟨_, fresh, others⟩ := nameDefects_cons_iff.mp named
    have unnamed : earlier.contains decl.name = false := by simpa using fresh
    simp only [compileAll, unnamed, Bool.false_eq_true, if_false, List.append_eq_nil_iff,
      compile_sound_iff, ih _ others, List.forall_mem_cons]

theorem compileAll_eq (decls : List RuleDecl) {earlier : List String} (next : Nat)
    (named : nameDefects earlier decls = []) (sound : ∀ decl ∈ decls, decl.Sound vocabulary declared) :
    compileAll vocabulary declared earlier next decls =
      { value := compiledRules vocabulary declared next decls
        blocks := opened vocabulary declared next (allBlocks decls) } := by
  induction decls generalizing earlier next with
  | nil => rfl
  | cons decl decls ih =>
    obtain ⟨_, fresh, othersNamed⟩ := nameDefects_cons_iff.mp named
    have unnamed : earlier.contains decl.name = false := by simpa using fresh
    have first := (sound decl (List.mem_cons_self ..)).compile_eq next
    have others := ih (next + decl.blocks.length) othersNamed fun other listed =>
      sound other (List.mem_cons_of_mem _ listed)
    rw [compileAll, unnamed, if_neg Bool.false_ne_true, first]
    simp only [length_opened, others, allBlocks, List.flatMap_cons, opened_append]
    rfl

end RuleDecl

namespace Grammar

variable {vocabulary : Vocabulary} {decls : List RuleDecl} {grammar : Grammar}

/-- The rules of declarations, followed by those of their blocks. -/
def ofDecls (vocabulary : Vocabulary) (decls : List RuleDecl) : Grammar :=
  ⟨RuleDecl.compiledRules vocabulary (decls.map RuleDecl.name) 0 decls ++
    RuleDecl.opened vocabulary (decls.map RuleDecl.name) 0 (RuleDecl.allBlocks decls), vocabulary⟩

/-- There is a grammar if nothing is wrong, and then it is that of the blocks in order. -/
theorem compile_eq_ok_iff : compile vocabulary decls = .ok grammar ↔
    RuleDecl.nameDefects [] decls = [] ∧
      (∀ decl ∈ decls, decl.Sound vocabulary (decls.map RuleDecl.name)) ∧
      grammar = ofDecls vocabulary decls := by
  dsimp only [compile]
  split
  · rename_i faultless
    obtain ⟨named, sound⟩ := List.append_eq_nil_iff.mp (List.isEmpty_iff.mp faultless)
    rw [RuleDecl.compileAll_sound_iff decls 0 named] at sound
    rw [RuleDecl.compileAll_eq decls 0 named sound, Except.ok.injEq, eq_comm]
    exact ⟨fun same => ⟨named, sound, same⟩, fun given => given.2.2⟩
  · rename_i faulty
    refine ⟨nofun, fun ⟨named, sound, _⟩ => (faulty ?_).elim⟩
    rw [named, List.nil_append, List.isEmpty_iff, RuleDecl.compileAll_sound_iff decls 0 named]
    exact sound

end Grammar

end Typeahead
