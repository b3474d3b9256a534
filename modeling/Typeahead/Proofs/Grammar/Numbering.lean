import Typeahead.Proofs.Grammar.Preorder
import Typeahead.Proofs.Sorting

/-!
Ids as they are given while declarations are read. The declared rules have the first ones, and a block
gets the next one where it opens. Rules are entered under their ids once they are complete, inner blocks
before outer ones; if nothing is wrong, no id is left without a rule and ids are places.
-/

namespace Typeahead

/-- What is known where declarations have been read so far. -/
structure Registry where
  nextId : Nat
  nextBlock : Nat
  /-- The complete rules, in the order of their ids. -/
  entries : List (Nat × Rule)
  defects : List Defect

namespace Registry

def report (registry : Registry) (defects : List Defect) : Registry :=
  { registry with defects := registry.defects ++ defects }

def enter (registry : Registry) (id : Nat) (rule : Rule) : Registry :=
  { registry with entries := insertByKey Prod.fst (id, rule) registry.entries }

/-- The next block takes its id and its number. -/
def opened (registry : Registry) : Registry :=
  { registry with nextId := registry.nextId + 1, nextBlock := registry.nextBlock + 1 }

mutual

def element (scope : Scope) (registry : Registry) : ElementDecl → Option Element × Registry
  | ⟨label, form, suffix⟩ =>
    match Multiplicity.ofSuffix? suffix with
    | none => (none, registry.report [.badSuffix scope.rule suffix])
    | some multiplicity =>
      let compiled := registry.form scope form
      (compiled.1.map fun symbol => ⟨label, symbol, multiplicity⟩, compiled.2)

/-- Compiles a form. The rule of a block is entered after those of the blocks inside it. -/
def form (scope : Scope) (registry : Registry) : Form → Option Symbol × Registry
  | .block alternatives =>
    let name := scope.blockName registry.nextBlock
    let inner := (registry.opened.report
      (if alternatives.isEmpty then [.emptyBlock scope.rule] else [])).alternatives scope alternatives
    (some (.rule registry.nextId name), inner.2.enter registry.nextId ⟨name, .block, inner.1⟩)
  | other =>
    let compiled := scope.symbol? other
    (compiled.value, registry.report compiled.defects)

def elements (scope : Scope) (registry : Registry) : List ElementDecl → List Element × Registry
  | [] => ([], registry)
  | decl :: decls =>
    let first := registry.element scope decl
    let others := first.2.elements scope decls
    (first.1.toList ++ others.1, others.2)

def alternative (scope : Scope) (registry : Registry) : AlternativeDecl → Alternative × Registry
  | ⟨label, decls⟩ =>
    let compiled := registry.elements scope decls
    (⟨label, compiled.1⟩, compiled.2)

def alternatives (scope : Scope) (registry : Registry) :
    List AlternativeDecl → List Alternative × Registry
  | [] => ([], registry)
  | decl :: decls =>
    let first := registry.alternative scope decl
    let others := first.2.alternatives scope decls
    (first.1 :: others.1, others.2)

end

/-- Compiles the rule at a place, unless a rule before it has its name. -/
def rule (vocabulary : Vocabulary) (declared : List String) (registry : Registry) (decl : RuleDecl)
    (place : Nat) : Registry :=
  if declared.findIdx? (· == decl.name) ≠ some place then registry
  else if decl.alternatives.isEmpty then registry.report [.emptyRule decl.name]
  else
    let compiled := registry.alternatives (decl.scope vocabulary declared) decl.alternatives
    compiled.2.enter place ⟨decl.name, decl.origin, compiled.1⟩

def rules (vocabulary : Vocabulary) (declared : List String) (registry : Registry)
    (decls : List (RuleDecl × Nat)) : Registry :=
  decls.foldl (fun registry entry => registry.rule vocabulary declared entry.1 entry.2) registry

/-- All rules with their ids, or all that is wrong. -/
def compile (vocabulary : Vocabulary) (decls : List RuleDecl) :
    Except (List Defect) (List (Nat × Rule)) :=
  let registry := rules vocabulary (decls.map RuleDecl.name)
    ⟨decls.length, 0, [], RuleDecl.nameDefects [] decls⟩ decls.zipIdx
  if registry.defects.isEmpty then .ok registry.entries else .error registry.defects

/-- A registry goes on from another one by a number of ids, by rules entered under their ids, and by
defects. -/
structure Continues (before : Registry) (count : Nat) (entered : List (Nat × Rule))
    (defects : List Defect) (after : Registry) : Prop where
  nextId : after.nextId = before.nextId + count
  nextBlock : after.nextBlock = before.nextBlock + count
  entries : after.entries.Perm (before.entries ++ entered)
  ascending : before.entries.Pairwise (·.1 ≤ ·.1) → after.entries.Pairwise (·.1 ≤ ·.1)
  reported : after.defects = before.defects ++ defects

theorem Continues.refl (registry : Registry) : registry.Continues 0 [] [] registry where
  nextId := rfl
  nextBlock := rfl
  entries := by rw [List.append_nil]
  ascending := id
  reported := by rw [List.append_nil]

theorem Continues.report (registry : Registry) (defects : List Defect) :
    registry.Continues 0 [] defects (registry.report defects) where
  nextId := rfl
  nextBlock := rfl
  entries := by rw [List.append_nil]; rfl
  ascending := id
  reported := rfl

theorem Continues.trans {before middle after : Registry} {count otherCount : Nat}
    {entered otherEntered : List (Nat × Rule)} {defects otherDefects : List Defect}
    (first : before.Continues count entered defects middle)
    (others : middle.Continues otherCount otherEntered otherDefects after) :
    before.Continues (count + otherCount) (entered ++ otherEntered) (defects ++ otherDefects) after where
  nextId := by rw [others.nextId, first.nextId, Nat.add_assoc]
  nextBlock := by rw [others.nextBlock, first.nextBlock, Nat.add_assoc]
  entries := by
    rw [← List.append_assoc]
    exact others.entries.trans (first.entries.append_right _)
  ascending := others.ascending ∘ first.ascending
  reported := by rw [others.reported, first.reported, List.append_assoc]

theorem Continues.enter {before after : Registry} {count : Nat} {entered : List (Nat × Rule)}
    {defects : List Defect} (continues : before.Continues count entered defects after) (id : Nat)
    (rule : Rule) :
    before.Continues count ((id, rule) :: entered) defects (after.enter id rule) where
  nextId := continues.nextId
  nextBlock := continues.nextBlock
  entries :=
    (insertByKey_perm ..).trans ((continues.entries.cons _).trans List.perm_middle.symm)
  ascending sorted := pairwise_insertByKey Prod.fst _ (continues.ascending sorted)
  reported := continues.reported

theorem Continues.opened (registry : Registry) : registry.Continues 1 [] [] registry.opened where
  nextId := rfl
  nextBlock := rfl
  entries := by rw [List.append_nil]; rfl
  ascending := id
  reported := by rw [List.append_nil]; rfl

/-- A registry goes on by rules whose ids are the next ones. -/
def ContinuesBy {α : Type} (before : Registry) (compiled : Compiled α) (after : Registry) : Prop :=
  before.Continues compiled.blocks.length ((compiled.blocks.zipIdx before.nextId).map Prod.swap)
    compiled.defects after

section Reading

variable {scope : Scope}

theorem symbol?_continues (registry : Registry) (form : Form) :
    registry.ContinuesBy (scope.symbol? form) (registry.report (scope.symbol? form).defects) := by
  rw [ContinuesBy, Scope.blocks_symbol?]
  exact .report registry _

theorem ContinuesBy.append {α β γ : Type} {before middle after : Registry} {first : Compiled α}
    {others : Compiled β} (continues : before.ContinuesBy first middle)
    (more : middle.ContinuesBy others after) (value : γ) :
    before.ContinuesBy
      { value, blocks := first.blocks ++ others.blocks, defects := first.defects ++ others.defects }
      after := by
  have together := continues.trans more
  rwa [continues.nextId, ← List.map_append, ← List.zipIdx_append, ← List.length_append] at together

theorem Continues.aligned {before after : Registry} {count first : Nat} {entered : List (Nat × Rule)}
    {defects : List Defect} (continues : before.Continues count entered defects after)
    (aligned : before.nextId = first + before.nextBlock) : after.nextId = first + after.nextBlock := by
  rw [continues.nextId, continues.nextBlock, aligned, Nat.add_assoc]

mutual

theorem element_continues (registry : Registry) (aligned : registry.nextId = scope.declared.length + registry.nextBlock) :
    (decl : ElementDecl) →
      (registry.element scope decl).1 = (scope.element registry.nextBlock decl).value ∧
      registry.ContinuesBy (scope.element registry.nextBlock decl) (registry.element scope decl).2
  | ⟨label, form, suffix⟩ => by
    unfold element Scope.element
    cases Multiplicity.ofSuffix? suffix with
    | none => exact ⟨rfl, .report registry _⟩
    | some multiplicity =>
      obtain ⟨value, continues⟩ := form_continues registry aligned form
      exact ⟨congrArg (Option.map (Element.mk label · multiplicity)) value, continues⟩

theorem form_continues (registry : Registry) (aligned : registry.nextId = scope.declared.length + registry.nextBlock) :
    (form : Form) →
      (registry.form scope form).1 = (scope.form registry.nextBlock form).value ∧
      registry.ContinuesBy (scope.form registry.nextBlock form) (registry.form scope form).2
  | .block alternatives => by
    have opens := (Continues.opened registry).trans (.report _
      (if alternatives.isEmpty then [.emptyBlock scope.rule] else []))
    obtain ⟨value, inside⟩ := alternatives_continues _ (opens.aligned aligned) alternatives
    have continues := (opens.trans inside).enter registry.nextId
      ⟨scope.blockName registry.nextBlock, .block,
        (scope.alternatives (registry.nextBlock + 1) alternatives).value⟩
    rw [form, Scope.form, value]
    refine ⟨by rw [← aligned], ?_⟩
    rw [Nat.add_comm, List.append_nil, List.nil_append] at continues
    exact continues
  | .literal text => ⟨rfl, symbol?_continues registry (.literal text)⟩
  | .token name => ⟨rfl, symbol?_continues registry (.token name)⟩
  | .rule name => ⟨rfl, symbol?_continues registry (.rule name)⟩
  | .noneOf items => ⟨rfl, symbol?_continues registry (.noneOf items)⟩
  | .any => ⟨rfl, symbol?_continues registry .any⟩

theorem elements_continues (registry : Registry) (aligned : registry.nextId = scope.declared.length + registry.nextBlock) :
    (decls : List ElementDecl) →
      (registry.elements scope decls).1 = (scope.elements registry.nextBlock decls).value ∧
      registry.ContinuesBy (scope.elements registry.nextBlock decls)
        (registry.elements scope decls).2
  | [] => ⟨rfl, .refl registry⟩
  | decl :: decls => by
    obtain ⟨value, first⟩ := element_continues registry aligned decl
    obtain ⟨values, others⟩ := elements_continues _ (first.aligned aligned) decls
    rw [first.nextBlock] at values others
    refine ⟨?_, first.append others _⟩
    rw [elements, Scope.elements, value, values]

theorem alternative_continues (registry : Registry) (aligned : registry.nextId = scope.declared.length + registry.nextBlock) :
    (decl : AlternativeDecl) →
      (registry.alternative scope decl).1 = (scope.alternative registry.nextBlock decl).value ∧
      registry.ContinuesBy (scope.alternative registry.nextBlock decl)
        (registry.alternative scope decl).2
  | ⟨label, decls⟩ => by
    obtain ⟨value, continues⟩ := elements_continues registry aligned decls
    exact ⟨congrArg (Alternative.mk label) value, continues⟩

theorem alternatives_continues (registry : Registry) (aligned : registry.nextId = scope.declared.length + registry.nextBlock) :
    (decls : List AlternativeDecl) →
      (registry.alternatives scope decls).1 = (scope.alternatives registry.nextBlock decls).value ∧
      registry.ContinuesBy (scope.alternatives registry.nextBlock decls)
        (registry.alternatives scope decls).2
  | [] => ⟨rfl, .refl registry⟩
  | decl :: decls => by
    obtain ⟨value, first⟩ := alternative_continues registry aligned decl
    obtain ⟨values, others⟩ := alternatives_continues _ (first.aligned aligned) decls
    rw [first.nextBlock] at values others
    refine ⟨?_, first.append others _⟩
    rw [alternatives, Scope.alternatives, value, values]

end

end Reading

section Rules

variable {vocabulary : Vocabulary} {declared : List String}

/-- The rule of a name stands at the place where the name is declared first. -/
theorem findIdx?_place {front : List String} {decl : RuleDecl} {decls : List RuleDecl}
    (names : declared = front ++ (decl :: decls).map RuleDecl.name) :
    declared.findIdx? (· == decl.name) = some front.length ↔ decl.name ∉ front := by
  rw [List.findIdx?_eq_some_iff_getElem]
  subst names
  constructor
  · rintro ⟨_, _, first⟩ again
    obtain ⟨place, inside, same⟩ := List.mem_iff_getElem.mp again
    exact first place inside (by rw [List.getElem_append_left inside, same, beq_self_eq_true])
  · intro fresh
    refine ⟨by simp, by simp, fun place inside same => fresh ?_⟩
    rw [List.getElem_append_left inside, beq_iff_eq] at same
    exact same ▸ List.getElem_mem inside

theorem rule_continues {registry : Registry} {decl : RuleDecl} {decls : List RuleDecl}
    {front : List String} (aligned : registry.nextId = declared.length + registry.nextBlock)
    (names : declared = front ++ (decl :: decls).map RuleDecl.name) :
    let compiled := if front.reverse.contains decl.name then { value := none }
      else decl.compile vocabulary declared registry.nextBlock
    registry.Continues compiled.blocks.length
      (compiled.value.toList.map (Prod.mk front.length) ++
        (compiled.blocks.zipIdx registry.nextId).map Prod.swap)
      compiled.defects (registry.rule vocabulary declared decl front.length) := by
  by_cases again : decl.name ∈ front
  · have passed : declared.findIdx? (· == decl.name) ≠ some front.length :=
      fun found => (findIdx?_place names).mp found again
    have listed : front.reverse.contains decl.name := by simpa using again
    rw [rule, if_pos passed, if_pos listed]
    exact .refl registry
  · have found := (findIdx?_place names).mpr again
    have unlisted : ¬ front.reverse.contains decl.name := by simpa using again
    rw [rule, if_neg (not_not_intro found), if_neg unlisted, RuleDecl.compile]
    by_cases missing : decl.alternatives.isEmpty
    · rw [if_pos missing, if_pos missing]
      exact .report registry _
    · obtain ⟨value, continues⟩ := @alternatives_continues (decl.scope vocabulary declared) registry
        aligned decl.alternatives
      rw [if_neg missing, if_neg missing]
      dsimp only
      rw [value]
      exact continues.enter front.length _

theorem numbered_cons {first : Compiled (Option Rule)} {others : Compiled (List Rule)}
    {entered : List (Nat × Rule)} {place id : Nat} (isRule : first.value.isSome)
    (numbered : entered.Perm ((others.value.zipIdx (place + 1)).map Prod.swap ++
      (others.blocks.zipIdx (id + first.blocks.length)).map Prod.swap)) :
    (first.value.toList.map (Prod.mk place) ++ (first.blocks.zipIdx id).map Prod.swap ++ entered).Perm
      (((first.value.toList ++ others.value).zipIdx place).map Prod.swap ++
        ((first.blocks ++ others.blocks).zipIdx id).map Prod.swap) := by
  obtain ⟨rule, value⟩ := Option.isSome_iff_exists.mp isRule
  rw [value, Option.toList_some, List.zipIdx_append, List.map_append, List.zipIdx_append,
    List.map_append, List.append_assoc, List.append_assoc]
  refine List.Perm.append_left _ ?_
  exact (numbered.append_left _).trans (List.perm_append_comm_assoc ..)

/-- Where nothing is wrong, the rules are entered under their places, and those of the blocks under the
next ids. -/
theorem rules_continues {decls : List RuleDecl} {front : List String} {registry : Registry}
    (aligned : registry.nextId = declared.length + registry.nextBlock)
    (names : declared = front ++ decls.map RuleDecl.name) :
    let compiled := RuleDecl.compileAll vocabulary declared front.reverse registry.nextBlock decls
    ∃ entered, registry.Continues compiled.blocks.length entered compiled.defects
        (registry.rules vocabulary declared (decls.zipIdx front.length)) ∧
      (RuleDecl.nameDefects front.reverse decls = [] → compiled.defects = [] →
        entered.Perm ((compiled.value.zipIdx front.length).map Prod.swap ++
          (compiled.blocks.zipIdx registry.nextId).map Prod.swap)) := by
  induction decls generalizing front registry with
  | nil => exact ⟨[], .refl registry, fun _ _ => .refl _⟩
  | cons decl decls ih =>
    have namesBehind : declared = (front ++ [decl.name]) ++ decls.map RuleDecl.name := by
      rw [names, List.map_cons, List.append_assoc, List.singleton_append]
    have first := @rule_continues vocabulary declared registry decl decls front aligned names
    obtain ⟨entered, others, numbered⟩ := ih (first.aligned aligned) namesBehind
    rw [List.reverse_append, List.reverse_singleton, List.singleton_append, List.length_append,
      List.length_singleton, first.nextBlock] at others numbered
    rw [first.nextId] at numbered
    rw [RuleDecl.compileAll]
    refine ⟨_, by rw [List.length_append]; exact first.trans others, fun named faultless => ?_⟩
    obtain ⟨_, fresh, namedBehind⟩ := RuleDecl.nameDefects_cons_iff.mp named
    obtain ⟨soundFirst, soundOthers⟩ := List.append_eq_nil_iff.mp faultless
    refine numbered_cons ?_ (numbered namedBehind soundOthers)
    rw [if_neg (by simpa using fresh)] at soundFirst ⊢
    rw [((decl.compile_sound_iff _).mp soundFirst).compile_eq]
    rfl

end Rules

/-- Rules in the order of their ids, which are the numbers from zero on. -/
theorem eq_zipIdx {entries : List (Nat × Rule)} {rules : List Rule}
    (ascending : entries.Pairwise (·.1 ≤ ·.1)) (numbered : entries.Perm (rules.zipIdx.map Prod.swap)) :
    entries = rules.zipIdx.map Prod.swap := by
  have keys : (rules.zipIdx.map Prod.swap).map Prod.fst = List.range' 0 rules.length := by
    rw [List.map_map]
    exact List.zipIdx_map_snd 0 rules
  have inOrder : (rules.zipIdx.map Prod.swap).Pairwise (·.1 ≤ ·.1) := by
    rw [← List.pairwise_map, keys]
    exact List.pairwise_le_range'
  have distinct : ((rules.zipIdx.map Prod.swap).map Prod.fst).Nodup := by
    rw [keys]
    exact List.nodup_range'
  refine numbered.eq_of_pairwise ?_ ascending inOrder
  intro left right inLeft inRight below above
  exact List.inj_on_of_nodup_map distinct (numbered.mem_iff.mp inLeft) inRight
    (Nat.le_antisymm below above)

/-- Ids are places: the rules that were entered under their ids are those of the grammar in order, and
what is wrong is the same. -/
theorem compile_eq (vocabulary : Vocabulary) (decls : List RuleDecl) :
    compile vocabulary decls = (Grammar.compile vocabulary decls).map
      fun grammar => grammar.rules.zipIdx.map Prod.swap := by
  obtain ⟨entered, continues, numbered⟩ := @rules_continues vocabulary (decls.map RuleDecl.name)
    decls [] ⟨decls.length, 0, [], RuleDecl.nameDefects [] decls⟩ (by simp) rfl
  rw [List.length_nil, List.reverse_nil] at continues numbered
  rw [compile, Grammar.compile, continues.reported]
  split
  · rename_i faultless
    obtain ⟨named, sound⟩ := List.append_eq_nil_iff.mp (List.isEmpty_iff.mp faultless)
    have inOrder := continues.entries.trans (numbered named sound)
    rw [RuleDecl.compileAll_sound_iff decls 0 named] at sound
    refine congrArg Except.ok (eq_zipIdx (continues.ascending List.Pairwise.nil) ?_)
    rw [RuleDecl.compileAll_eq decls 0 named sound, ← List.map_append] at inOrder
    rw [RuleDecl.compileAll_eq decls 0 named sound, List.zipIdx_append,
      RuleDecl.length_compiledRules, Nat.zero_add]
    exact inOrder
  · rfl

end Registry

end Typeahead
