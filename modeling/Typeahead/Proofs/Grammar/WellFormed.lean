import Std.Data.String.ToNat
import Typeahead.Proofs.Chart.Stages
import Typeahead.Proofs.Grammar.Numbering
import Typeahead.Proofs.Grammar.References

/-!
Compiled grammars are well formed: ids are places, names tell rules apart, and every reference leads to
the rule that it names, a declared one or that of the block that stood in its place.
-/

namespace Typeahead

section Becomes

variable (grammar : Grammar) (declared : List String)

mutual

/-- What a declared element has become where the next block has the number `next`. -/
def ElementDecl.Becomes (next : Nat) : ElementDecl → Option Element → Prop
  | ⟨_, form, _⟩, element => form.Becomes next (element.map Element.symbol)

/-- A name has become a reference to the declared rule, and a block, which is not empty, one to its own
rule, whose alternatives are those of the block. Anything else has become a terminal, or nothing. -/
def Form.Becomes (next : Nat) : Form → Option Symbol → Prop
  | .rule name, symbol =>
    ∃ target : Nat, declared[target]? = some name ∧ symbol = some (.rule target name)
  | .block alternatives, symbol =>
    alternatives ≠ [] ∧ ∃ rule, grammar.rules[declared.length + next]? = some rule ∧
      symbol = some (.rule (declared.length + next) rule.name) ∧
      AlternativeDecl.AllBecome (next + 1) alternatives rule.alternatives
  | _, symbol => ∀ terminal ∈ symbol, terminal.isTerminal = true

def ElementDecl.AllBecome (next : Nat) : List ElementDecl → List Element → Prop
  | [], elements => elements = []
  | decl :: decls, elements =>
    ∃ first others, elements = first.toList ++ others ∧ decl.Becomes next first ∧
      ElementDecl.AllBecome (next + decl.blocks.length) decls others

def AlternativeDecl.Becomes (next : Nat) : AlternativeDecl → Alternative → Prop
  | ⟨_, decls⟩, alternative => ElementDecl.AllBecome next decls alternative.elements

def AlternativeDecl.AllBecome (next : Nat) : List AlternativeDecl → List Alternative → Prop
  | [], alternatives => alternatives = []
  | decl :: decls, alternatives =>
    ∃ first others, alternatives = first :: others ∧ decl.Becomes next first ∧
      AlternativeDecl.AllBecome (next + decl.blocks.length) decls others

end

end Becomes

namespace Scope

variable {scope : Scope} {grammar : Grammar} {all : List Rule}

/-- The rules of all blocks stand behind the declared ones. -/
def Holds (scope : Scope) (grammar : Grammar) (all : List Rule) : Prop :=
  ∀ number : Nat, grammar.rules[scope.declared.length + number]? = all[number]?

theorem symbol?_terminal {form : Form} (noName : ∀ name, form ≠ .rule name) :
    ∀ symbol ∈ (scope.symbol? form).value, symbol.isTerminal = true := by
  fun_cases symbol? scope form with
  | case7 name => exact (noName name rfl).elim
  | _ => simp [Symbol.isTerminal, Symbol.target?]

theorem rule_becomes {name : String} (next : Nat) (sound : (scope.symbol? (.rule name)).defects = []) :
    (Form.rule name).Becomes grammar scope.declared next (scope.symbol? (.rule name)).value := by
  cases found : scope.declared.findIdx? (· == name) with
  | none => simp [symbol?, found] at sound
  | some target =>
    obtain ⟨inside, same, _⟩ := List.findIdx?_eq_some_iff_getElem.mp found
    have named : scope.declared[target]? = some name := by
      rw [List.getElem?_eq_getElem inside, eq_of_beq same]
    exact ⟨target, named, by rw [symbol?, found]⟩

mutual

theorem element_becomes (holds : scope.Holds grammar all) (next : Nat) :
    (decl : ElementDecl) → (scope.element next decl).defects = [] →
      Rule.Placed all next (scope.element next decl).blocks →
      decl.Becomes grammar scope.declared next (scope.element next decl).value
  | ⟨label, form, suffix⟩, sound, placed => by
    unfold element at sound placed ⊢
    cases found : Multiplicity.ofSuffix? suffix with
    | none => simp [found] at sound
    | some multiplicity =>
      simp only [found] at sound placed ⊢
      have inside := form_becomes holds next form sound placed
      rw [ElementDecl.Becomes, Option.map_map]
      simpa [Function.comp_def] using inside

theorem form_becomes (holds : scope.Holds grammar all) (next : Nat) :
    (form : Form) → (scope.form next form).defects = [] →
      Rule.Placed all next (scope.form next form).blocks →
      form.Becomes grammar scope.declared next (scope.form next form).value
  | .block alternatives, sound, placed => by
    obtain ⟨notEmpty, soundInside⟩ := List.append_eq_nil_iff.mp sound
    have inside := alternatives_becomes holds (next + 1) alternatives soundInside placed.tail
    exact ⟨by simpa using notEmpty, _, (holds next).trans placed.getElem?, rfl, inside⟩
  | .rule _, sound, _ => rule_becomes next sound
  | .literal _, _, _ => symbol?_terminal nofun
  | .token _, _, _ => symbol?_terminal nofun
  | .noneOf _, _, _ => symbol?_terminal nofun
  | .any, _, _ => symbol?_terminal nofun

theorem elements_becomes (holds : scope.Holds grammar all) (next : Nat) :
    (decls : List ElementDecl) → (scope.elements next decls).defects = [] →
      Rule.Placed all next (scope.elements next decls).blocks →
      ElementDecl.AllBecome grammar scope.declared next decls (scope.elements next decls).value
  | [], _, _ => rfl
  | decl :: decls, sound, placed => by
    obtain ⟨soundFirst, soundOthers⟩ := List.append_eq_nil_iff.mp sound
    have first := element_becomes holds next decl soundFirst placed.append_left
    have others := elements_becomes holds _ decls soundOthers placed.append_right
    have size := congrArg List.length (element_opened next decl soundFirst)
    rw [length_opened] at size
    refine ⟨_, _, rfl, first, ?_⟩
    rw [← size]
    exact others

theorem alternative_becomes (holds : scope.Holds grammar all) (next : Nat) :
    (decl : AlternativeDecl) → (scope.alternative next decl).defects = [] →
      Rule.Placed all next (scope.alternative next decl).blocks →
      decl.Becomes grammar scope.declared next (scope.alternative next decl).value
  | ⟨_, decls⟩, sound, placed => elements_becomes holds next decls sound placed

theorem alternatives_becomes (holds : scope.Holds grammar all) (next : Nat) :
    (decls : List AlternativeDecl) → (scope.alternatives next decls).defects = [] →
      Rule.Placed all next (scope.alternatives next decls).blocks →
      AlternativeDecl.AllBecome grammar scope.declared next decls (scope.alternatives next decls).value
  | [], _, _ => rfl
  | decl :: decls, sound, placed => by
    obtain ⟨soundFirst, soundOthers⟩ := List.append_eq_nil_iff.mp sound
    have first := alternative_becomes holds next decl soundFirst placed.append_left
    have others := alternatives_becomes holds _ decls soundOthers placed.append_right
    have size := congrArg List.length (alternative_opened next decl soundFirst)
    rw [length_opened] at size
    refine ⟨_, _, rfl, first, ?_⟩
    rw [← size]
    exact others

end

end Scope

section Refers

variable {grammar : Grammar} {declared : List String}

/-- A reference leads to a rule of its name. -/
def Symbol.Refers (grammar : Grammar) (symbol : Symbol) : Prop :=
  ∀ target name, symbol = .rule target name →
    ∃ rule, grammar.rules[target]? = some rule ∧ rule.name = name

theorem Symbol.Refers.target_lt {symbol : Symbol} (refers : symbol.Refers grammar) {target : Nat}
    (leads : symbol.target? = some target) : target < grammar.rules.length := by
  cases symbol with
  | rule place name =>
    cases leads
    obtain ⟨rule, stands, _⟩ := refers target name rfl
    exact (List.getElem?_eq_some_iff.mp stands).1
  | literal | token | noneOf | any => cases leads

/-- The declared names are those of the rules at their places. -/
def Grammar.Names (grammar : Grammar) (declared : List String) : Prop :=
  ∀ (place : Nat) (name : String), declared[place]? = some name →
    ∃ rule, grammar.rules[place]? = some rule ∧ rule.name = name

theorem Form.Becomes.refers (names : grammar.Names declared) {next : Nat} {form : Form}
    {symbol : Symbol} (becomes : form.Becomes grammar declared next (some symbol)) :
    symbol.Refers grammar := by
  intro target name same
  cases form with
  | rule given =>
    obtain ⟨place, named, become⟩ := becomes
    cases same
    cases become
    exact names _ _ named
  | block alternatives =>
    obtain ⟨_, rule, stands, become, _⟩ := becomes
    cases same
    cases become
    exact ⟨rule, stands, rfl⟩
  | _ =>
    have terminal := becomes symbol rfl
    rw [same] at terminal
    cases terminal

theorem ElementDecl.AllBecome.refers (names : grammar.Names declared) :
    {next : Nat} → {decls : List ElementDecl} → {elements : List Element} →
      ElementDecl.AllBecome grammar declared next decls elements →
      ∀ element ∈ elements, element.symbol.Refers grammar
  | _, [], _, become => by
    cases become
    exact List.forall_mem_nil _
  | _, ⟨_, form, _⟩ :: decls, _, ⟨first, others, split, becomes, becomeOthers⟩ => by
    subst split
    refine List.forall_mem_append.mpr ⟨fun element given => ?_, becomeOthers.refers names⟩
    rw [Option.mem_toList.mp given] at becomes
    exact Form.Becomes.refers names becomes

theorem AlternativeDecl.AllBecome.refers (names : grammar.Names declared) :
    {next : Nat} → {decls : List AlternativeDecl} → {alternatives : List Alternative} →
      AlternativeDecl.AllBecome grammar declared next decls alternatives →
      ∀ alternative ∈ alternatives, ∀ element ∈ alternative.elements, element.symbol.Refers grammar
  | _, [], _, become => by
    cases become
    exact List.forall_mem_nil _
  | _, ⟨_, _⟩ :: decls, _, ⟨first, others, split, becomes, becomeOthers⟩ => by
    subst split
    exact List.forall_mem_cons.mpr
      ⟨ElementDecl.AllBecome.refers names becomes, becomeOthers.refers names⟩

theorem AlternativeDecl.AllBecome.length_eq :
    {next : Nat} → {decls : List AlternativeDecl} → {alternatives : List Alternative} →
      AlternativeDecl.AllBecome grammar declared next decls alternatives →
      alternatives.length = decls.length
  | _, [], _, become => by
    cases become
    rfl
  | _, _ :: _, _, ⟨_, _, split, _, becomeOthers⟩ => by
    rw [split, List.length_cons, List.length_cons, becomeOthers.length_eq]

end Refers

section Stands

variable {grammar : Grammar} {declared : List String}

/-- A block is not empty, and the rule with its number has its alternatives. -/
def AlternativeDecl.Stand (grammar : Grammar) (declared : List String)
    (block : List AlternativeDecl × Nat) : Prop :=
  block.1 ≠ [] ∧ ∃ rule, grammar.rules[declared.length + block.2]? = some rule ∧
    AlternativeDecl.AllBecome grammar declared (block.2 + 1) block.1 rule.alternatives

theorem forall_mem_zipIdx_append {α : Type} {holds : α × Nat → Prop} {first others : List α} {next : Nat}
    (inFirst : ∀ x ∈ first.zipIdx next, holds x)
    (inOthers : ∀ x ∈ others.zipIdx (next + first.length), holds x) :
    ∀ x ∈ (first ++ others).zipIdx next, holds x := by
  rw [List.zipIdx_append]
  exact List.forall_mem_append.mpr ⟨inFirst, inOthers⟩

mutual

/-- With an element, all blocks inside it stand in the grammar. -/
theorem ElementDecl.Becomes.stand : {next : Nat} → (decl : ElementDecl) → {element : Option Element} →
    decl.Becomes grammar declared next element →
    ∀ block ∈ decl.blocks.zipIdx next, AlternativeDecl.Stand grammar declared block
  | _, ⟨_, form, _⟩, _, becomes => Form.Becomes.stand form becomes

theorem Form.Becomes.stand : {next : Nat} → (form : Form) → {symbol : Option Symbol} →
    form.Becomes grammar declared next symbol →
    ∀ block ∈ form.blocks.zipIdx next, AlternativeDecl.Stand grammar declared block
  | _, .block alternatives, _, ⟨given, rule, stands, _, inside⟩ =>
    List.forall_mem_cons.mpr
      ⟨⟨given, rule, stands, inside⟩, AlternativeDecl.AllBecome.stand alternatives inside⟩
  | _, .literal _, _, _ => List.forall_mem_nil _
  | _, .token _, _, _ => List.forall_mem_nil _
  | _, .rule _, _, _ => List.forall_mem_nil _
  | _, .noneOf _, _, _ => List.forall_mem_nil _
  | _, .any, _, _ => List.forall_mem_nil _

theorem ElementDecl.AllBecome.stand : {next : Nat} → (decls : List ElementDecl) →
    {elements : List Element} → ElementDecl.AllBecome grammar declared next decls elements →
    ∀ block ∈ (ElementDecl.allBlocks decls).zipIdx next, AlternativeDecl.Stand grammar declared block
  | _, [], _, _ => List.forall_mem_nil _
  | _, decl :: decls, _, ⟨_, _, _, becomes, becomeOthers⟩ =>
    forall_mem_zipIdx_append (ElementDecl.Becomes.stand decl becomes)
      (ElementDecl.AllBecome.stand decls becomeOthers)

theorem AlternativeDecl.Becomes.stand : {next : Nat} → (decl : AlternativeDecl) →
    {alternative : Alternative} → decl.Becomes grammar declared next alternative →
    ∀ block ∈ decl.blocks.zipIdx next, AlternativeDecl.Stand grammar declared block
  | _, ⟨_, decls⟩, _, becomes => ElementDecl.AllBecome.stand decls becomes

theorem AlternativeDecl.AllBecome.stand : {next : Nat} → (decls : List AlternativeDecl) →
    {alternatives : List Alternative} →
    AlternativeDecl.AllBecome grammar declared next decls alternatives →
    ∀ block ∈ (AlternativeDecl.allBlocks decls).zipIdx next,
      AlternativeDecl.Stand grammar declared block
  | _, [], _, _ => List.forall_mem_nil _
  | _, decl :: decls, _, ⟨_, _, _, becomes, becomeOthers⟩ =>
    forall_mem_zipIdx_append (AlternativeDecl.Becomes.stand decl becomes)
      (AlternativeDecl.AllBecome.stand decls becomeOthers)

end

end Stands

namespace Scope

/-- Names of blocks differ in their numbers, whatever the rules they belong to. -/
theorem blockName_injective {scope other : Scope} {number otherNumber : Nat}
    (plain : '#' ∉ scope.rule.toList) (otherPlain : '#' ∉ other.rule.toList)
    (same : scope.blockName number = other.blockName otherNumber) : number = otherNumber := by
  have behind : ∀ (given : Scope) (count : Nat), '#' ∉ given.rule.toList →
      (given.blockName count).toList.dropWhile (· != '#') = "#block".toList ++ count.repr.toList := by
    intro given count fresh
    have passed : ∀ c ∈ given.rule.toList, (c != '#') = true := by
      intro c listed
      exact bne_iff_ne.mpr fun hash => fresh (hash ▸ listed)
    rw [blockName, String.toList_append, String.toList_append, List.append_assoc,
      List.dropWhile_append_of_pos passed]
    rfl
  have digits := behind scope number plain
  rw [same, behind other otherNumber otherPlain, List.append_cancel_left_eq] at digits
  exact (Nat.repr_inj.mp (String.toList_inj.mp digits)).symm

theorem hash_mem_blockName (scope : Scope) (number : Nat) : '#' ∈ (scope.blockName number).toList := by
  rw [blockName, String.toList_append, String.toList_append]
  exact List.mem_append_left _ (List.mem_append_right _ (by decide))

end Scope

namespace RuleDecl

variable {vocabulary : Vocabulary} {declared : List String}

theorem names_compiledRules (next : Nat) (decls : List RuleDecl) :
    (compiledRules vocabulary declared next decls).map Rule.name = decls.map name := by
  induction decls generalizing next with
  | nil => rfl
  | cons decl decls ih => rw [compiledRules, List.map_cons, List.map_cons, ih]; rfl

theorem names_opened (next : Nat) (blocks : List (RuleDecl × List AlternativeDecl)) :
    (opened vocabulary declared next blocks).map Rule.name = (blocks.zipIdx next).map
      fun block => (block.1.1.scope vocabulary declared).blockName block.2 := by
  rw [opened, List.map_map]
  rfl

theorem nodup_names_opened (next : Nat) {blocks : List (RuleDecl × List AlternativeDecl)}
    (plain : ∀ block ∈ blocks, '#' ∉ block.1.name.toList) :
    ((opened vocabulary declared next blocks).map Rule.name).Nodup := by
  have numbers : (blocks.zipIdx next).map Prod.snd = List.range' next blocks.length :=
    List.zipIdx_map_snd next blocks
  have distinct : ((blocks.zipIdx next).map Prod.snd).Nodup := by
    rw [numbers]
    exact List.nodup_range'
  rw [names_opened]
  refine (distinct.of_map _).map_on fun block listed other otherListed same => ?_
  have number := Scope.blockName_injective (plain _ (List.fst_mem_of_mem_zipIdx listed))
    (plain _ (List.fst_mem_of_mem_zipIdx otherListed)) same
  exact List.inj_on_of_nodup_map distinct listed otherListed number

end RuleDecl

namespace Grammar

variable {vocabulary : Vocabulary} {decls : List RuleDecl} {grammar : Grammar}

/-- What can be relied upon in a grammar that declarations are compiled to. -/
structure WellFormed (grammar : Grammar) (vocabulary : Vocabulary) (decls : List RuleDecl) : Prop where
  /-- The rules have their places as ids. -/
  numbered : Registry.compile vocabulary decls = .ok (grammar.rules.zipIdx.map Prod.swap)
  distinct : (grammar.rules.map Rule.name).Nodup
  found : ∀ name place, grammar.ruleIndex? name = some place ↔
    ∃ rule, grammar.rules[place]? = some rule ∧ rule.name = name
  named : ∀ name rule, grammar.ruleNamed? name = some rule ↔ rule ∈ grammar.rules ∧ rule.name = name
  /-- The declared rules come first, and the rules of the blocks behind them. -/
  length_eq : grammar.rules.length = decls.length + (RuleDecl.allBlocks decls).length
  declared : ∀ (place : Nat) (decl : RuleDecl), decls[place]? = some decl →
    ∃ rule, grammar.rules[place]? = some rule ∧ rule.name = decl.name ∧ rule.origin = decl.origin ∧
      AlternativeDecl.AllBecome grammar (decls.map RuleDecl.name)
        (RuleDecl.allBlocks (decls.take place)).length decl.alternatives rule.alternatives
  blocks : ∀ (number : Nat) (decl : RuleDecl) (alternatives : List AlternativeDecl),
    (RuleDecl.allBlocks decls)[number]? = some (decl, alternatives) →
    ∃ rule, grammar.rules[decls.length + number]? = some rule ∧
      rule.name = decl.name ++ "#block" ++ toString number ∧ rule.origin = .block ∧
      AlternativeDecl.AllBecome grammar (decls.map RuleDecl.name) (number + 1) alternatives
        rule.alternatives
  inhabited : ∀ rule ∈ grammar.rules, rule.alternatives ≠ []
  refers : ∀ rule ∈ grammar.rules, ∀ alternative ∈ rule.alternatives,
    ∀ element ∈ alternative.elements, element.symbol.Refers grammar
  once : ∀ number < (RuleDecl.allBlocks decls).length,
    ∃! place : Nat × Nat × Nat, ∃ element,
      grammar.element? place.1 place.2.1 place.2.2 = some element ∧
        element.symbol.target? = some (decls.length + number)
  /-- The places that items of charts speak of exist. -/
  ranged : ∀ start tokens position, ∀ node ∈ ((Chart.parse grammar start tokens).column position).nodes,
    ∃ rule, grammar.rules[node.item.rule]? = some rule ∧
      node.item.alternative < rule.alternatives.length

/-- The rules of the blocks are those behind the declared ones. -/
theorem ofDecls_holds (vocabulary : Vocabulary) (decls : List RuleDecl) (decl : RuleDecl) :
    (decl.scope vocabulary (decls.map RuleDecl.name)).Holds (ofDecls vocabulary decls)
      (RuleDecl.opened vocabulary (decls.map RuleDecl.name) 0 (RuleDecl.allBlocks decls)) := by
  intro number
  rw [RuleDecl.length_declared, ofDecls, ← RuleDecl.length_compiledRules 0 decls,
    List.getElem?_append_right (Nat.le_add_right ..), Nat.add_sub_cancel_left]

theorem ofDecls_becomes (sound : ∀ decl ∈ decls, decl.Sound vocabulary (decls.map RuleDecl.name))
    {place : Nat} {decl : RuleDecl} (listed : decls[place]? = some decl) :
    let next := (RuleDecl.allBlocks (decls.take place)).length
    AlternativeDecl.AllBecome (ofDecls vocabulary decls) (decls.map RuleDecl.name) next
      decl.alternatives
      (decl.compiledRule vocabulary (decls.map RuleDecl.name) next).alternatives := by
  intro next
  have faultless := (sound decl (List.mem_of_getElem? listed)).faultless next
  have split : decls = decls.take place ++ decl :: decls.drop (place + 1) := by
    obtain ⟨inside, rfl⟩ := List.getElem?_eq_some_iff.mp listed
    rw [List.cons_getElem_drop_succ, List.take_append_drop]
  have inOrder : RuleDecl.allBlocks decls = RuleDecl.allBlocks (decls.take place) ++
      (decl.blocks ++ RuleDecl.allBlocks (decls.drop (place + 1))) := by
    conv => lhs; rw [split]
    simp only [RuleDecl.allBlocks, List.flatMap_append, List.flatMap_cons]
  have placed : Rule.Placed
      (RuleDecl.opened vocabulary (decls.map RuleDecl.name) 0 (RuleDecl.allBlocks decls)) next
      (RuleDecl.opened vocabulary (decls.map RuleDecl.name) next decl.blocks) := by
    rw [inOrder, RuleDecl.opened_append, RuleDecl.opened_append, Rule.Placed, Nat.zero_add,
      List.drop_left' (RuleDecl.length_opened ..)]
    exact List.prefix_append ..
  rw [RuleDecl.opened_blocks, ← Scope.alternatives_opened next decl.alternatives faultless] at placed
  exact Scope.alternatives_becomes (ofDecls_holds vocabulary decls decl) next decl.alternatives faultless placed

/-- The rule of a declaration stands at its place, and its blocks are numbered on from those before. -/
theorem ofDecls_declared (sound : ∀ decl ∈ decls, decl.Sound vocabulary (decls.map RuleDecl.name))
    {place : Nat} {decl : RuleDecl} (listed : decls[place]? = some decl) :
    ∃ rule, (ofDecls vocabulary decls).rules[place]? = some rule ∧ rule.name = decl.name ∧
      rule.origin = decl.origin ∧
      AlternativeDecl.AllBecome (ofDecls vocabulary decls) (decls.map RuleDecl.name)
        (RuleDecl.allBlocks (decls.take place)).length decl.alternatives rule.alternatives := by
  have inside := (List.getElem?_eq_some_iff.mp listed).1
  have placed := @RuleDecl.getElem?_compiledRules vocabulary (decls.map RuleDecl.name) decls place decl
    0 listed
  rw [Nat.zero_add] at placed
  refine ⟨_, ?_, rfl, rfl, ofDecls_becomes sound listed⟩
  rw [ofDecls, List.getElem?_append_left (by rwa [RuleDecl.length_compiledRules]), placed]

theorem allBlocks_stand {grammar : Grammar} {declared : List String} {decls : List RuleDecl} {next : Nat}
    (become : ∀ (place : Nat) (decl : RuleDecl), decls[place]? = some decl →
      ∃ alternatives, AlternativeDecl.AllBecome grammar declared
        (next + (RuleDecl.allBlocks (decls.take place)).length) decl.alternatives alternatives) :
    ∀ block ∈ (RuleDecl.allBlocks decls).zipIdx next,
      AlternativeDecl.Stand grammar declared (block.1.2, block.2) := by
  induction decls generalizing next with
  | nil => exact List.forall_mem_nil _
  | cons decl decls ih =>
    obtain ⟨_, first⟩ := become 0 decl rfl
    refine forall_mem_zipIdx_append ?_ (ih fun place other listed => ?_)
    · rw [RuleDecl.blocks, List.zipIdx_map]
      refine List.forall_mem_map.mpr fun block among => ?_
      exact AlternativeDecl.AllBecome.stand decl.alternatives first block among
    · have others := become (place + 1) other listed
      rwa [List.take_succ_cons, RuleDecl.allBlocks, List.flatMap_cons, List.length_append,
        ← Nat.add_assoc] at others

/-- The rule of a block stands behind the declared ones in the order of the blocks. -/
theorem ofDecls_blocks (sound : ∀ decl ∈ decls, decl.Sound vocabulary (decls.map RuleDecl.name))
    {number : Nat} {decl : RuleDecl} {alternatives : List AlternativeDecl}
    (listed : (RuleDecl.allBlocks decls)[number]? = some (decl, alternatives)) :
    alternatives ≠ [] ∧
    ∃ rule, (ofDecls vocabulary decls).rules[decls.length + number]? = some rule ∧
      rule.name = decl.name ++ "#block" ++ toString number ∧ rule.origin = .block ∧
      AlternativeDecl.AllBecome (ofDecls vocabulary decls) (decls.map RuleDecl.name) (number + 1)
        alternatives rule.alternatives := by
  have become : ∀ (place : Nat) (decl : RuleDecl), decls[place]? = some decl →
      ∃ alternatives, AlternativeDecl.AllBecome (ofDecls vocabulary decls) (decls.map RuleDecl.name)
        (0 + (RuleDecl.allBlocks (decls.take place)).length) decl.alternatives alternatives := by
    intro place decl declared
    rw [Nat.zero_add]
    exact ⟨_, ofDecls_becomes sound declared⟩
  have among : ((decl, alternatives), number) ∈ (RuleDecl.allBlocks decls).zipIdx 0 :=
    List.mem_zipIdx_iff_getElem?.mpr listed
  obtain ⟨given, rule, stands, inside⟩ := allBlocks_stand become _ among
  have placed := (ofDecls_holds vocabulary decls decl number).trans
    (RuleDecl.getElem?_opened 0 listed)
  rw [Nat.zero_add] at placed
  obtain rfl := Option.some.inj (placed.symm.trans stands)
  rw [List.length_map] at stands
  exact ⟨given, _, stands, rfl, rfl, inside⟩

theorem ofDecls_length :
    (ofDecls vocabulary decls).rules.length = decls.length + (RuleDecl.allBlocks decls).length := by
  rw [ofDecls, List.length_append, RuleDecl.length_compiledRules, RuleDecl.length_opened]

/-- Every rule comes from alternatives that were declared, those of a rule or those of a block. -/
theorem ofDecls_origin (sound : ∀ decl ∈ decls, decl.Sound vocabulary (decls.map RuleDecl.name))
    {rule : Rule} (listed : rule ∈ (ofDecls vocabulary decls).rules) :
    ∃ next alternatives, alternatives ≠ [] ∧ AlternativeDecl.AllBecome (ofDecls vocabulary decls)
      (decls.map RuleDecl.name) next alternatives rule.alternatives := by
  obtain ⟨place, placed⟩ := List.mem_iff_getElem?.mp listed
  by_cases isDeclared : place < decls.length
  · have declared := List.getElem?_eq_getElem isDeclared
    obtain ⟨_, stands, _, _, become⟩ := ofDecls_declared sound declared
    obtain rfl := Option.some.inj (placed.symm.trans stands)
    exact ⟨_, _, (sound _ (List.mem_of_getElem? declared)).given, become⟩
  · obtain ⟨number, rfl⟩ := Nat.exists_eq_add_of_le (Nat.not_lt.mp isDeclared)
    have inside := (List.getElem?_eq_some_iff.mp placed).1
    rw [ofDecls_length, Nat.add_lt_add_iff_left] at inside
    obtain ⟨given, _, stands, _, _, become⟩ :=
      ofDecls_blocks sound (List.getElem?_eq_getElem inside)
    obtain rfl := Option.some.inj (placed.symm.trans stands)
    exact ⟨_, _, given, become⟩

theorem ofDecls_names : (ofDecls vocabulary decls).Names (decls.map RuleDecl.name) := by
  intro place name listed
  have names := @RuleDecl.names_compiledRules vocabulary (decls.map RuleDecl.name) 0 decls
  rw [← names, List.getElem?_map] at listed
  obtain ⟨rule, placed, same⟩ := Option.map_eq_some_iff.mp listed
  have inside := (List.getElem?_eq_some_iff.mp placed).1
  exact ⟨rule, by rwa [ofDecls, List.getElem?_append_left inside], same⟩

theorem ofDecls_distinct (vocabulary : Vocabulary) (named : RuleDecl.nameDefects [] decls = []) :
    ((ofDecls vocabulary decls).rules.map Rule.name).Nodup := by
  obtain ⟨distinct, plain⟩ := RuleDecl.nameDefects_iff.mp named
  have plainBlocks : ∀ block ∈ RuleDecl.allBlocks decls, '#' ∉ block.1.name.toList := by
    intro block among
    obtain ⟨decl, listed, inside⟩ := List.mem_flatMap.mp among
    obtain ⟨_, _, rfl⟩ := List.mem_map.mp inside
    exact (plain decl listed).2
  rw [ofDecls, List.map_append, RuleDecl.names_compiledRules]
  refine distinct.append (RuleDecl.nodup_names_opened 0 plainBlocks) fun name declared blocks => ?_
  obtain ⟨decl, listed, rfl⟩ := List.mem_map.mp declared
  rw [RuleDecl.names_opened] at blocks
  obtain ⟨block, _, same⟩ := List.mem_map.mp blocks
  exact (plain decl listed).2 (same ▸ Scope.hash_mem_blockName _ _)

theorem ruleIndex?_eq_some_iff (distinct : (grammar.rules.map Rule.name).Nodup) {name : String}
    {place : Nat} : grammar.ruleIndex? name = some place ↔
      ∃ rule, grammar.rules[place]? = some rule ∧ rule.name = name := by
  have named : ∀ {other : Nat}, grammar.ruleIndex? name = some other →
      (grammar.rules.map Rule.name)[other]? = some name := by
    intro other found
    obtain ⟨inside, same, _⟩ := List.findIdx?_eq_some_iff_getElem.mp found
    rw [List.getElem?_map, List.getElem?_eq_getElem inside, Option.map_some, eq_of_beq same]
  constructor
  · intro found
    have given := named found
    rwa [List.getElem?_map, Option.map_eq_some_iff] at given
  · rintro ⟨rule, placed, same⟩
    cases found : grammar.ruleIndex? name with
    | none =>
      have differs := List.findIdx?_eq_none_iff.mp found rule (List.mem_of_getElem? placed)
      rw [same, beq_self_eq_true] at differs
      cases differs
    | some other =>
      have given : (grammar.rules.map Rule.name)[place]? = some name := by
        rw [List.getElem?_map, placed, Option.map_some, same]
      have inside := (List.getElem?_eq_some_iff.mp (named found)).1
      exact congrArg some ((List.getElem?_inj inside distinct).mp ((named found).trans given.symm))

theorem ruleNamed?_eq_some_iff (distinct : (grammar.rules.map Rule.name).Nodup) {name : String}
    {rule : Rule} : grammar.ruleNamed? name = some rule ↔ rule ∈ grammar.rules ∧ rule.name = name := by
  have named : ∀ {other : Rule}, grammar.ruleNamed? name = some other →
      other ∈ grammar.rules ∧ other.name = name := by
    intro other found
    exact ⟨List.mem_of_find?_eq_some found, eq_of_beq (List.find?_eq_some_iff_append.mp found).1⟩
  constructor
  · exact named
  · rintro ⟨listed, same⟩
    cases found : grammar.ruleNamed? name with
    | none =>
      have differs := List.find?_eq_none.mp found rule listed
      exact (differs (beq_iff_eq.mpr same)).elim
    | some other =>
      obtain ⟨otherListed, otherSame⟩ := named found
      exact congrArg some
        (List.inj_on_of_nodup_map distinct otherListed listed (otherSame.trans same.symm))

theorem parse_ranged (grammar : Grammar) (start : Nat) (tokens : List Token) (position : Nat)
    {node : Node} (listed : node ∈ ((Chart.parse grammar start tokens).column position).nodes) :
    ∃ rule, grammar.rules[node.item.rule]? = some rule ∧
      node.item.alternative < rule.alternatives.length := by
  rw [Chart.column] at listed
  cases inChart : (Chart.parse grammar start tokens).columns[position]? with
  | none => simp [inChart] at listed
  | some column =>
    rw [inChart, Option.getD_some] at listed
    obtain ⟨slot, placed⟩ := Array.mem_iff_getElem?.mp listed
    have stage := (Chart.parse_charted grammar start tokens).1 position column inChart
    have inside : node.item.alternative < (grammar.alternatives node.item.rule).length :=
      (stage.sound.valid slot node placed).declared
    rw [alternatives] at inside
    cases declared : grammar.rules[node.item.rule]? with
    | none => simp [declared] at inside
    | some rule =>
      rw [declared] at inside
      exact ⟨rule, rfl, inside⟩

/-- Whatever is compiled is well formed. -/
theorem compile_wellFormed (compiled : compile vocabulary decls = .ok grammar) :
    grammar.WellFormed vocabulary decls := by
  obtain ⟨named, sound, rfl⟩ := compile_eq_ok_iff.mp compiled
  have distinct := ofDecls_distinct vocabulary named
  exact {
    numbered := by
      rw [Registry.compile_eq, compiled]
      rfl
    distinct := distinct
    found := fun _ _ => ruleIndex?_eq_some_iff distinct
    named := fun _ _ => ruleNamed?_eq_some_iff distinct
    length_eq := ofDecls_length
    declared := fun _ _ listed => ofDecls_declared sound listed
    blocks := fun _ _ _ listed => (ofDecls_blocks sound listed).2
    inhabited := fun rule listed => by
      obtain ⟨_, _, given, become⟩ := ofDecls_origin sound listed
      intro missing
      rw [missing] at become
      exact given (List.length_eq_zero_iff.mp become.length_eq.symm)
    refers := fun rule listed => by
      obtain ⟨_, _, _, become⟩ := ofDecls_origin sound listed
      exact become.refers ofDecls_names
    once := fun number isBlock => existsUnique_reference (ofDecls_once sound isBlock)
    ranged := fun start tokens position _ listed => parse_ranged _ start tokens position listed }

/-- Groups hold a block inside a block, and behind both there is a reference by name. -/
theorem compile_wellFormed_group :
    compile Sample.callVocabulary groupDecls = .ok groupGrammar ∧
      groupGrammar.WellFormed Sample.callVocabulary groupDecls :=
  have compiled : compile Sample.callVocabulary groupDecls = .ok groupGrammar := by decide +kernel
  ⟨compiled, compile_wellFormed compiled⟩

end Grammar

end Typeahead
