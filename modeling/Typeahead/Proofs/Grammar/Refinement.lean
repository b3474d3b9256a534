import Mathlib.Data.List.Forall2
import Typeahead.Grammar.Sample
import Typeahead.Proofs.Grammar.Compilation

/-!
A compiled grammar derives what the declarations match: every declared rule stands at the place of its
declaration, and its language is what the declaration reads as.
-/

namespace Typeahead

namespace RuleDecl

variable {vocabulary : Vocabulary} {declared : List String} {all : List Rule}

def scope (vocabulary : Vocabulary) (declared : List String) (decl : RuleDecl) : Scope :=
  ⟨vocabulary, declared, decl.name, decl.lexical⟩

theorem length_declared (decl : RuleDecl) (decls : List RuleDecl) :
    (decl.scope vocabulary (decls.map name)).declared.length = decls.length := List.length_map _

/-- A rule has the name and the alternatives of a declaration without defects, whose blocks stand
among all. -/
def CompiledTo (vocabulary : Vocabulary) (declared : List String) (all : List Rule)
    (decl : RuleDecl) (rule : Rule) : Prop :=
  rule.name = decl.name ∧ ∃ next,
    let compiled := (decl.scope vocabulary declared).alternatives next decl.alternatives
    rule.alternatives = compiled.value ∧ compiled.defects = [] ∧
      Rule.Placed all next compiled.blocks

theorem compile_compiledTo {next : Nat} {decl : RuleDecl}
    (sound : (decl.compile vocabulary declared next).defects = [])
    (placed : Rule.Placed all next (decl.compile vocabulary declared next).blocks) :
    ∃ rule, (decl.compile vocabulary declared next).value = some rule ∧
      CompiledTo vocabulary declared all decl rule := by
  unfold compile at sound placed ⊢
  split at sound
  · cases sound
  · rename_i given
    simp only [given] at placed ⊢
    exact ⟨_, rfl, rfl, next, rfl, sound, placed⟩

theorem compileAll_compiledTo (decls : List RuleDecl) {earlier : List String} {next : Nat}
    (named : nameDefects earlier decls = [])
    (sound : (compileAll vocabulary declared earlier next decls).defects = [])
    (placed : Rule.Placed all next
      (compileAll vocabulary declared earlier next decls).blocks) :
    List.Forall₂ (CompiledTo vocabulary declared all) decls
      (compileAll vocabulary declared earlier next decls).value := by
  induction decls generalizing earlier next with
  | nil => exact .nil
  | cons decl decls ih =>
    obtain ⟨namedFirst, namedOthers⟩ := List.append_eq_nil_iff.mp named
    have unnamed : earlier.contains decl.name = false := by
      by_contra present
      rw [Bool.not_eq_false] at present
      simp only [present, if_true, List.append_eq_nil_iff] at namedFirst
      cases namedFirst.2
    simp only [compileAll, unnamed] at sound placed ⊢
    obtain ⟨soundFirst, soundOthers⟩ := List.append_eq_nil_iff.mp sound
    obtain ⟨rule, value, compiled⟩ := compile_compiledTo soundFirst placed.append_left
    have others := ih namedOthers soundOthers placed.append_right
    simp only [Bool.false_eq_true, if_false, value, Option.toList_some, List.cons_append,
      List.nil_append]
    exact .cons compiled others

theorem names_nodup (decls : List RuleDecl) {earlier : List String}
    (named : nameDefects earlier decls = []) :
    (decls.map name).Nodup ∧ ∀ decl ∈ decls, decl.name ∉ earlier := by
  induction decls generalizing earlier with
  | nil => simp
  | cons decl decls ih =>
    obtain ⟨first, others⟩ := List.append_eq_nil_iff.mp named
    obtain ⟨distinct, apart⟩ := ih others
    have fresh : decl.name ∉ earlier := by
      intro present
      simp [present] at first
    constructor
    · refine List.nodup_cons.mpr ⟨fun again => ?_, distinct⟩
      obtain ⟨other, listed, same⟩ := List.mem_map.mp again
      exact apart other listed (by rw [same]; exact List.mem_cons_self ..)
    · intro other listed
      rcases List.mem_cons.mp listed with rfl | listed
      · exact fresh
      · exact fun present => apart other listed (List.mem_cons_of_mem _ present)

theorem findIdx?_name {decls : List RuleDecl} (distinct : (decls.map name).Nodup)
    {place : Nat} {decl : RuleDecl} (listed : decls[place]? = some decl) :
    (decls.map name).findIdx? (· == decl.name) = some place := by
  obtain ⟨inside, rfl⟩ := List.getElem?_eq_some_iff.mp listed
  rw [List.findIdx?_eq_some_iff_getElem]
  refine ⟨by simpa using inside, by simp, ?_⟩
  intro other before same
  have differ := List.pairwise_iff_getElem.mp distinct other place
    (by rw [List.length_map]; omega) (by rwa [List.length_map]) before
  exact differ (by rw [eq_of_beq same, List.getElem_map])

theorem of_findIdx?_name {decls : List RuleDecl} {place : Nat} {name : String}
    (found : (decls.map RuleDecl.name).findIdx? (· == name) = some place) :
    ∃ decl, decls[place]? = some decl ∧ decl.name = name := by
  obtain ⟨inside, same, _⟩ := List.findIdx?_eq_some_iff_getElem.mp found
  rw [List.getElem_map] at same
  exact ⟨_, List.getElem?_eq_getElem (by simpa using inside), eq_of_beq same⟩

def language (vocabulary : Vocabulary) (decls : List RuleDecl) (name : String) : Language TokenId :=
  {word | RuleDecl.Matches vocabulary decls name word}

end RuleDecl

namespace Grammar

variable {vocabulary : Vocabulary} {decls : List RuleDecl} {grammar : Grammar}

/-- A grammar has the rules that declarations of different names are compiled to, and behind them those
of the blocks. -/
structure CompiledFrom (grammar : Grammar) (vocabulary : Vocabulary) (decls : List RuleDecl)
    (rules blocks : List Rule) : Prop where
  distinct : (decls.map RuleDecl.name).Nodup
  rules_eq : grammar.rules = rules ++ blocks
  compiled : List.Forall₂ (RuleDecl.CompiledTo vocabulary (decls.map RuleDecl.name) blocks) decls rules

theorem compile_compiledFrom (compiled : compile vocabulary decls = .ok grammar) :
    ∃ rules blocks, grammar.CompiledFrom vocabulary decls rules blocks := by
  dsimp only [compile] at compiled
  split at compiled
  · rename_i sound
    obtain ⟨named, sound⟩ := List.append_eq_nil_iff.mp (List.isEmpty_iff.mp sound)
    cases compiled
    exact ⟨_, _, (RuleDecl.names_nodup decls named).1, rfl,
      RuleDecl.compileAll_compiledTo decls named sound (List.prefix_refl _)⟩
  · cases compiled

namespace CompiledFrom

variable {rules blocks : List Rule}

theorem length_eq (source : grammar.CompiledFrom vocabulary decls rules blocks) :
    rules.length = decls.length := source.compiled.length_eq.symm

theorem rule_of_decl (source : grammar.CompiledFrom vocabulary decls rules blocks) {place : Nat}
    {decl : RuleDecl} (listed : decls[place]? = some decl) :
    ∃ rule, grammar.rules[place]? = some rule ∧
      RuleDecl.CompiledTo vocabulary (decls.map RuleDecl.name) blocks decl rule := by
  obtain ⟨inside, rfl⟩ := List.getElem?_eq_some_iff.mp listed
  have insideRules : place < rules.length := by rw [source.length_eq]; exact inside
  refine ⟨rules[place], ?_, source.compiled.get inside insideRules⟩
  rw [source.rules_eq, List.getElem?_append_left insideRules, List.getElem?_eq_getElem insideRules]

theorem getElem?_block (source : grammar.CompiledFrom vocabulary decls rules blocks) (number : Nat) :
    grammar.rules[decls.length + number]? = blocks[number]? := by
  rw [source.rules_eq, ← source.length_eq, List.getElem?_append_right (by omega)]
  simp

theorem ruleIndex? (source : grammar.CompiledFrom vocabulary decls rules blocks) {place : Nat}
    {decl : RuleDecl} (listed : decls[place]? = some decl) :
    grammar.ruleIndex? decl.name = some place := by
  have names : rules.map Rule.name = decls.map RuleDecl.name := by
    have same : List.Forall₂ (fun decl rule => rule.name = decl.name) decls rules :=
      source.compiled.imp fun _ _ compiled => compiled.1
    rw [← List.forall₂_eq_eq_eq, List.forall₂_map_left_iff, List.forall₂_map_right_iff]
    exact same.flip
  have found := RuleDecl.findIdx?_name source.distinct listed
  rw [← names, List.findIdx?_map] at found
  rw [Grammar.ruleIndex?, source.rules_eq, List.findIdx?_append]
  exact congrArg (Option.or · _) found

theorem alternatives_block (source : grammar.CompiledFrom vocabulary decls rules blocks)
    (decl : RuleDecl) {next : Nat} {alternatives : List AlternativeDecl}
    (placed : Rule.Placed blocks next
      ((decl.scope vocabulary (decls.map RuleDecl.name)).form next (.block alternatives)).blocks) :
    grammar.alternatives (decls.length + next) =
      ((decl.scope vocabulary (decls.map RuleDecl.name)).alternatives (next + 1) alternatives).value := by
  have listed := source.getElem?_block next
  rw [placed.getElem?] at listed
  rw [Grammar.alternatives, listed]
  rfl

end CompiledFrom

/-- What the declarations say of a word of a rule, one of theirs or one of a block. -/
structure Explained (vocabulary : Vocabulary) (decls : List RuleDecl) (blocks : List Rule) (rule : Nat)
    (word : List TokenId) : Prop where
  declared : ∀ decl, decls[rule]? = some decl → RuleDecl.Matches vocabulary decls decl.name word
  block : ∀ (decl : RuleDecl) (next : Nat) (alternatives : List AlternativeDecl),
    let compiled := (decl.scope vocabulary (decls.map RuleDecl.name)).form next (.block alternatives)
    rule = decls.length + next → compiled.defects = [] → Rule.Placed blocks next compiled.blocks →
      word ∈ AlternativeDecl.choice vocabulary decl.lexical (RuleDecl.language vocabulary decls)
        alternatives

section Sound

variable {blocks : List Rule} {known : Nat → Language TokenId}

theorem agrees_of_explained
    (explained : ∀ target piece, piece ∈ known target → Explained vocabulary decls blocks target piece)
    (decl : RuleDecl) :
    Scope.Agrees (decl.scope vocabulary (decls.map RuleDecl.name)) blocks (· ≤ ·) known
      (RuleDecl.language vocabulary decls) where
  congruence := .le
  names name target found piece derived := by
    obtain ⟨other, listed, rfl⟩ := RuleDecl.of_findIdx?_name found
    exact (explained target piece derived).declared other listed
  blocks next alternatives sound placed _ piece derived := by
    rw [RuleDecl.length_declared] at derived
    exact (explained _ piece derived).block decl next alternatives rfl sound placed

/-- Whatever a compiled grammar derives is what the declarations say. -/
theorem Derives.explained {rules : List Rule} {rule : Nat} {word : List TokenId}
    (source : grammar.CompiledFrom vocabulary decls rules blocks) (derived : grammar.Derives rule word) :
    Explained vocabulary decls blocks rule word := by
  induction derived with
  | @of_alternative rule word alternative known _ listed matched ih =>
    constructor
    · intro decl declared
      obtain ⟨compiled, place, _, next, same, sound, placed⟩ := source.rule_of_decl declared
      have among : alternative ∈ compiled.alternatives := by
        rwa [Grammar.alternatives, place] at listed
      rw [same] at among
      exact .of_alternative (RuleDecl.language vocabulary decls) (fun _ _ known => known)
        (List.mem_of_getElem? declared)
        (Scope.alternatives_related (agrees_of_explained ih decl) next decl.alternatives sound placed
          (Alternative.mem_choice.mpr ⟨alternative, among, matched⟩))
    · intro decl next alternatives compiled place sound placed
      have soundInside := (List.append_eq_nil_iff.mp sound).2
      rw [place, source.alternatives_block decl placed] at listed
      exact Scope.alternatives_related (agrees_of_explained ih decl) (next + 1) alternatives soundInside
        placed.tail (Alternative.mem_choice.mpr ⟨alternative, listed, matched⟩)

end Sound

theorem choice_le_language (grammar : Grammar) (rule : Nat) :
    Alternative.choice grammar.language (grammar.alternatives rule) ≤ grammar.language rule := by
  intro word chosen
  obtain ⟨alternative, listed, matched⟩ := Alternative.mem_choice.mp chosen
  exact .of_elements listed matched

section Complete

variable {rules blocks : List Rule} {named : String → Language TokenId}

theorem agrees_of_derives (source : grammar.CompiledFrom vocabulary decls rules blocks)
    (derived : ∀ name piece, piece ∈ named name → ∀ target,
      (decls.map RuleDecl.name).findIdx? (· == name) = some target → grammar.Derives target piece)
    (decl : RuleDecl) :
    Scope.Agrees (decl.scope vocabulary (decls.map RuleDecl.name)) blocks (· ≥ ·) grammar.language
      named where
  congruence := .ge
  names name target found piece matched := derived name piece matched target found
  blocks next alternatives _ placed inside := by
    have choice := choice_le_language grammar (decls.length + next)
    rw [source.alternatives_block decl placed] at choice
    rw [RuleDecl.length_declared]
    exact inside.trans choice

theorem derives_of_matches (source : grammar.CompiledFrom vocabulary decls rules blocks)
    {name : String} {word : List TokenId} (matched : RuleDecl.Matches vocabulary decls name word) :
    ∀ place, (decls.map RuleDecl.name).findIdx? (· == name) = some place →
      grammar.Derives place word := by
  induction matched with
  | @of_alternative decl word named _ declared chosen ih =>
    intro place found
    obtain ⟨other, listed⟩ := List.mem_iff_getElem?.mp declared
    rw [RuleDecl.findIdx?_name source.distinct listed] at found
    cases found
    obtain ⟨compiled, stands, _, next, same, sound, placed⟩ := source.rule_of_decl listed
    have related := Scope.alternatives_related (agrees_of_derives source ih decl) next
      decl.alternatives sound placed
    have choice := choice_le_language grammar place
    rw [Grammar.alternatives, stands, Option.map_some, Option.getD_some, same] at choice
    exact choice (related chosen)

end Complete

/-- A declared rule stands in the compiled grammar at the place of its declaration, and derives exactly
what the declaration, read as it is written, matches. -/
theorem compile_derives_iff (compiled : compile vocabulary decls = .ok grammar) {place : Nat}
    {decl : RuleDecl} (declared : decls[place]? = some decl) :
    grammar.ruleIndex? decl.name = some place ∧ ∀ word,
      grammar.Derives place word ↔ RuleDecl.Matches vocabulary decls decl.name word := by
  obtain ⟨rules, blocks, source⟩ := compile_compiledFrom compiled
  refine ⟨source.ruleIndex? declared, fun word => ⟨fun derived => ?_, fun matched => ?_⟩⟩
  · exact (derived.explained source).declared decl declared
  · exact derives_of_matches source matched place (RuleDecl.findIdx?_name source.distinct declared)

/-- What an item of a group is: anything but a parenthesis, or groups again. -/
def itemDecl : RuleDecl :=
  ⟨"item", false, [.plain [.noneOf [.literal ")", .literal "("]], .plain [.rule "groups"]]⟩

/-- Groups up to the end of the input, and a lexer rule of what the vocabulary lacks. -/
def groupDecls : List RuleDecl :=
  [⟨"groups", false, [⟨none, [Form.element (.block
      [.plain [.token "NAME"],
       ⟨none, [Form.element (.literal "("), Form.element (.block [.plain [.rule "item"]]) "*",
        Form.element (.literal ")")]⟩]) "+",
      Form.element (.token "EOF") "?"]⟩]⟩,
   itemDecl,
   ⟨"LINE", true, [.plain [.literal "#", .noneOf [.literal "!"], .token "END"]]⟩]

/-- Groups with the rules of both blocks behind those that are declared. -/
def groupGrammar : Grammar :=
  ⟨[⟨"groups", .parser, [⟨none, [⟨none, .rule 3 "groups#block0", .plus⟩]⟩]⟩,
    ⟨"item", .parser, [⟨none, [⟨none, .noneOf [⟨2⟩, ⟨3⟩], .once⟩]⟩,
      ⟨none, [⟨none, .rule 0 "groups", .once⟩]⟩]⟩,
    ⟨"LINE", .lexer, [⟨none, [⟨none, .literal "#" .invalid, .once⟩, ⟨none, .any, .once⟩,
      ⟨none, .any, .once⟩]⟩]⟩,
    ⟨"groups#block0", .block, [⟨none, [⟨none, .token "NAME" ⟨1⟩, .once⟩]⟩,
      ⟨none, [⟨none, .literal "(" ⟨2⟩, .once⟩, ⟨none, .rule 4 "groups#block1", .star⟩,
        ⟨none, .literal ")" ⟨3⟩, .once⟩]⟩]⟩,
    ⟨"groups#block1", .block, [⟨none, [⟨none, .rule 1 "item", .once⟩]⟩]⟩],
    Sample.callVocabulary⟩

theorem compile_derives_iff_item : compile Sample.callVocabulary groupDecls = .ok groupGrammar ∧
    groupDecls[1]? = some itemDecl ∧ groupGrammar.ruleIndex? "item" = some 1 ∧
    ∀ word, groupGrammar.Derives 1 word ↔
      RuleDecl.Matches Sample.callVocabulary groupDecls "item" word :=
  have compiled : compile Sample.callVocabulary groupDecls = .ok groupGrammar := by decide +kernel
  have declared : groupDecls[1]? = some itemDecl := rfl
  ⟨compiled, declared, compile_derives_iff compiled declared⟩

end Grammar

end Typeahead
